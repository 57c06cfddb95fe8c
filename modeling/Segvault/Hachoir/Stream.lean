import Segvault.BitString

namespace Segvault.Hachoir

inductive Endian
  | bigEndian
  | littleEndian
  | middleEndian
  deriving DecidableEq, Repr

/-! What the stream classes raise; `unfinished` stands for a loop that has not
ended within the turns it was given. -/

inductive Failure
  | assertionError
  | typeError
  | indexError
  | valueError
  | notImplementedError
  | outputStreamError (message : String)
  | inputStreamError (message : String)
  | readStreamError (size address : Nat) (got : Option Nat)
  | nullStreamError
  | unfinished
  deriving DecidableEq, Repr

instance decidableEqExcept {α ε : Type} [DecidableEq α] [DecidableEq ε] :
    DecidableEq (Except ε α)
  | .ok first, .ok second =>
      if same : first = second then isTrue (by rw [same])
      else isFalse fun equal => same (Except.ok.inj equal)
  | .error first, .error second =>
      if same : first = second then isTrue (by rw [same])
      else isFalse fun equal => same (Except.error.inj equal)
  | .ok _, .error _ => isFalse nofun
  | .error _, .ok _ => isFalse nofun

/-! The order in which a byte order fills the bits of a byte. -/

def Endian.order : Endian → BitString.Order
  | .littleEndian => .lowFirst
  | .bigEndian => .highFirst
  | .middleEndian => .highFirst

end Segvault.Hachoir
