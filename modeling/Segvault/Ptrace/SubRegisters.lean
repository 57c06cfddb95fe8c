import Segvault.Ptrace.Memory
import Mathlib.Data.Nat.Bitwise

namespace Segvault.Ptrace

/-! The registers of a traced Linux process on an Intel CPU, and the names of their parts. -/

inductive Intel
  | i386
  | x86_64
  deriving DecidableEq, Repr

inductive CType
  | ulong
  | ushort
  deriving DecidableEq, Repr

namespace Intel

/-- The fields of `user_regs_struct`. -/
def registers : Intel → List (String × CType)
  | .x86_64 =>
      [("r15", .ulong), ("r14", .ulong), ("r13", .ulong), ("r12", .ulong), ("rbp", .ulong),
        ("rbx", .ulong), ("r11", .ulong), ("r10", .ulong), ("r9", .ulong), ("r8", .ulong),
        ("rax", .ulong), ("rcx", .ulong), ("rdx", .ulong), ("rsi", .ulong), ("rdi", .ulong),
        ("orig_rax", .ulong), ("rip", .ulong), ("cs", .ulong), ("eflags", .ulong),
        ("rsp", .ulong), ("ss", .ulong), ("fs_base", .ulong), ("gs_base", .ulong),
        ("ds", .ulong), ("es", .ulong), ("fs", .ulong), ("gs", .ulong)]
  | .i386 =>
      [("ebx", .ulong), ("ecx", .ulong), ("edx", .ulong), ("esi", .ulong), ("edi", .ulong),
        ("ebp", .ulong), ("eax", .ulong), ("ds", .ushort), ("__ds", .ushort),
        ("es", .ushort), ("__es", .ushort), ("fs", .ushort), ("__fs", .ushort),
        ("gs", .ushort), ("__gs", .ushort), ("orig_eax", .ulong), ("eip", .ulong),
        ("cs", .ushort), ("__cs", .ushort), ("eflags", .ulong), ("esp", .ulong),
        ("ss", .ushort), ("__ss", .ushort)]

/-- How many bits a register holds; `0` for one that does not exist. -/
def bits (cpu : Intel) (name : String) : Nat :=
  match cpu, cpu.registers.lookup name with
  | _, none => 0
  | _, some .ushort => 16
  | .i386, some .ulong => 32
  | .x86_64, some .ulong => 64

end Intel

/-- An entry of `CPU_SUB_REGISTERS`, which is a tuple of two or of three. -/
inductive SubRegister
  | pair (register : String) (shift : Nat)
  | triple (register : String) (shift mask : Nat)
  deriving DecidableEq, Repr

def flags : List (String × SubRegister) :=
  [("cf", .triple "eflags" 0 1), ("pf", .triple "eflags" 2 1), ("af", .triple "eflags" 4 1),
    ("zf", .triple "eflags" 6 1), ("sf", .triple "eflags" 7 1), ("tf", .triple "eflags" 8 1),
    ("if", .triple "eflags" 9 1), ("df", .triple "eflags" 10 1),
    ("of", .triple "eflags" 11 1), ("iopl", .triple "eflags" 12 2)]

/-- `CPU_SUB_REGISTERS`. -/
def Intel.subRegisters : Intel → List (String × SubRegister)
  | .x86_64 =>
      [("al", .triple "rax" 0 0xff), ("bl", .triple "rbx" 0 0xff),
        ("cl", .triple "rcx" 0 0xff), ("dl", .triple "rdx" 0 0xff),
        ("ah", .triple "rax" 8 0xff), ("bh", .triple "rbx" 8 0xff),
        ("ch", .triple "rcx" 8 0xff), ("dh", .triple "rdx" 8 0xff),
        ("ax", .triple "rax" 0 0xffff), ("bx", .triple "rbx" 0 0xffff),
        ("cx", .triple "rcx" 0 0xffff), ("dx", .triple "rdx" 0 0xffff),
        ("eax", .pair "rax" 32), ("ebx", .pair "rbx" 32),
        ("ecx", .pair "rcx" 32), ("edx", .pair "rdx" 32)] ++ flags
  | .i386 =>
      [("al", .triple "eax" 0 0xff), ("bl", .triple "ebx" 0 0xff),
        ("cl", .triple "ecx" 0 0xff), ("dl", .triple "edx" 0 0xff),
        ("ah", .triple "eax" 8 0xff), ("bh", .triple "ebx" 8 0xff),
        ("ch", .triple "ecx" 8 0xff), ("dh", .triple "edx" 8 0xff),
        ("ax", .triple "eax" 0 0xffff), ("bx", .triple "ebx" 0 0xffff),
        ("cx", .triple "ecx" 0 0xffff), ("dx", .triple "edx" 0 0xffff)] ++ flags

/-- What the registers hold. -/
structure Registers (cpu : Intel) where
  value : String → Nat
  bounded : ∀ name, value name < 2 ^ cpu.bits name

variable {cpu : Intel}

/-- Assigning an integer to a field keeps the bits that the field has. -/
def Registers.setattr (self : Registers cpu) (name : String) (value : Int) : Registers cpu where
  value := fun other =>
    if other = name then (value % 2 ^ cpu.bits name).toNat else self.value other
  bounded := by
    intro other
    split
    · rename_i same
      have positive : (0 : Int) < 2 ^ cpu.bits name := by positivity
      have above := Int.emod_nonneg value positive.ne'
      have below := Int.emod_lt_of_pos value positive
      have power : ((2 : Int) ^ cpu.bits name) = ((2 ^ cpu.bits name : Nat) : Int) := by
        push_cast
        rfl
      rw [same]
      omega
    · exact self.bounded other

/-- `value & mask` for a mask that is not negative. -/
def andMask (value : Int) (mask : Nat) : Nat :=
  match value with
  | .ofNat value => value &&& mask
  | .negSucc value => Nat.ldiff mask value

def Registers.readRegister (self : Registers cpu) (name : String) (shift mask : Nat) :
    Except Failure Nat :=
  if (cpu.registers.lookup name).isNone then .error .processError
  else
    let value := self.value name
    if mask ≠ 0 then .ok (value >>> shift &&& mask) else .ok value

def Registers.getreg (self : Registers cpu) (name : String) : Except Failure Nat :=
  match cpu.subRegisters.lookup name with
  | some (.pair _ _) => .error .valueError
  | some (.triple register shift mask) => self.readRegister register shift mask
  | none => self.readRegister name 0 0

def Registers.writeRegister (self : Registers cpu) (name : String) (value : Int) :
    Except Failure (Registers cpu) :=
  if (cpu.registers.lookup name).isNone then .error .processError
  else .ok (self.setattr name value)

def Registers.setreg (self : Registers cpu) (name : String) (value : Int) :
    Except Failure (Registers cpu) :=
  match cpu.subRegisters.lookup name with
  | some (.pair _ _) => .error .valueError
  | some (.triple register shift mask) =>
      let fullValue := self.value register
      let fullValue := Nat.ldiff fullValue mask
      let fullValue := fullValue ||| andMask value mask <<< shift
      self.writeRegister register fullValue
  | none => self.writeRegister name value

/-! What a name stands for. -/

/-- The place of a part of a register: its first bit and its width. -/
structure Place where
  register : String
  start : Nat
  width : Nat
  deriving DecidableEq, Repr

def Intel.wide (cpu : Intel) (letter : String) : String :=
  match cpu with
  | .x86_64 => "r" ++ letter ++ "x"
  | .i386 => "e" ++ letter ++ "x"

def Intel.places (cpu : Intel) : List (String × Place) :=
  let flag (name : String) (start width : Nat) : String × Place :=
    (name, { register := "eflags", start, width })
  ["a", "b", "c", "d"].flatMap (fun letter =>
    [(letter ++ "l", { register := cpu.wide letter, start := 0, width := 8 }),
      (letter ++ "h", { register := cpu.wide letter, start := 8, width := 8 }),
      (letter ++ "x", { register := cpu.wide letter, start := 0, width := 16 })] ++
    (match cpu with
      | .x86_64 => [("e" ++ letter ++ "x",
          { register := cpu.wide letter, start := 0, width := 32 })]
      | .i386 => [])) ++
  [flag "cf" 0 1, flag "pf" 2 1, flag "af" 4 1, flag "zf" 6 1, flag "sf" 7 1, flag "tf" 8 1,
    flag "if" 9 1, flag "df" 10 1, flag "of" 11 1, flag "iopl" 12 2]

/-- Writing a part of a register writes these bits and no others. -/
def WriteExact (self : Registers cpu) (name : String) (place : Place) (value : Int) : Prop :=
  ∃ after, self.setreg name value = .ok after ∧
    after.getreg name = .ok (value % 2 ^ place.width).toNat ∧
    (∀ bit, ¬ (place.start ≤ bit ∧ bit < place.start + place.width) →
      (after.value place.register).testBit bit = (self.value place.register).testBit bit) ∧
    ∀ other, other ≠ place.register → after.value other = self.value other

/-- The entry is a triple, its mask lets the value through, and the part begins at the first
bit, or the bits there are clear and those of the part are set only where the value sets them. -/
def Fits (self : Registers cpu) (name : String) (width : Nat) (value : Int) : Prop :=
  ∃ register shift mask,
    cpu.subRegisters.lookup name = some (.triple register shift mask) ∧
      (value % 2 ^ width).toNat &&& mask = (value % 2 ^ width).toNat ∧
      (shift = 0 ∨ self.value register &&& mask = 0 ∧
        (self.value register >>> shift &&& mask) ||| (value % 2 ^ width).toNat =
          (value % 2 ^ width).toNat)

/-! The table of the source against the places of the names. -/

/-- What holds of an entry that is a triple. -/
structure Placed (cpu : Intel) (place : Place) (register : String) (shift mask : Nat) :
    Prop where
  whole : register = place.register
  start : shift = place.start
  masked : mask ≠ 0
  narrow : mask < 2 ^ place.width
  apart : shift = 0 ∨ place.width ≤ shift
  inside : shift + place.width ≤ cpu.bits register
  known : (cpu.registers.lookup register).isNone = false

instance decidablePlaced (cpu : Intel) (place : Place) (register : String) (shift mask : Nat) :
    Decidable (Placed cpu place register shift mask) :=
  decidable_of_iff
    (register = place.register ∧ shift = place.start ∧ mask ≠ 0 ∧ mask < 2 ^ place.width ∧
      (shift = 0 ∨ place.width ≤ shift) ∧ shift + place.width ≤ cpu.bits register ∧
      (cpu.registers.lookup register).isNone = false)
    ⟨fun ⟨one, two, three, four, five, six, seven⟩ => ⟨one, two, three, four, five, six, seven⟩,
      fun ⟨one, two, three, four, five, six, seven⟩ => ⟨one, two, three, four, five, six, seven⟩⟩

/-- What the table says of a name: a pair, or a triple at its place. -/
def Entered (cpu : Intel) (name : String) (place : Place) : Bool :=
  match cpu.subRegisters.lookup name with
  | some (.pair _ _) => true
  | some (.triple register shift mask) => decide (Placed cpu place register shift mask)
  | none => false

theorem entered (cpu : Intel) : (cpu.places.all fun entry => Entered cpu entry.1 entry.2) = true := by
  cases cpu <;> decide

/-! Bits. -/

theorem testBit_beyond {number width bit : Nat} (narrow : number < 2 ^ width)
    (wide : width ≤ bit) : number.testBit bit = false :=
  Nat.testBit_lt_two_pow (narrow.trans_le (Nat.pow_le_pow_right (by decide) wide))

theorem andMask_eq (value : Int) {mask width : Nat} (narrow : mask < 2 ^ width) :
    andMask value mask = (value % 2 ^ width).toNat &&& mask := by
  have clear (bit : Nat) (wide : width ≤ bit) : mask.testBit bit = false :=
    testBit_beyond narrow wide
  apply Nat.eq_of_testBit_eq
  intro bit
  cases value with
  | ofNat value =>
      have part : ((Int.ofNat value) % 2 ^ width).toNat = value % 2 ^ width := by
        rw [Int.ofNat_eq_natCast]
        exact_mod_cast Int.toNat_natCast (value % 2 ^ width)
      rw [part, andMask, Nat.testBit_and, Nat.testBit_and, Nat.testBit_mod_two_pow]
      by_cases wide : width ≤ bit
      · rw [clear bit wide, Bool.and_false, Bool.and_false]
      · rw [decide_eq_true (Nat.lt_of_not_le wide), Bool.true_and]
  | negSucc value =>
      have below : value % 2 ^ width < 2 ^ width := Nat.mod_lt _ (Nat.two_pow_pos width)
      have part : ((Int.negSucc value) % 2 ^ width).toNat =
          2 ^ width - (value % 2 ^ width + 1) := by
        have positive : (0 : Int) < 2 ^ width := by positivity
        rw [Int.negSucc_emod value positive]
        have cast : ((value : Int) % 2 ^ width) = ((value % 2 ^ width : Nat) : Int) := by
          push_cast
          rfl
        have power : ((2 : Int) ^ width) = ((2 ^ width : Nat) : Int) := by
          push_cast
          rfl
        rw [cast, power]
        omega
      rw [part, andMask, Nat.testBit_ldiff, Nat.testBit_and,
        Nat.testBit_two_pow_sub_succ below, Nat.testBit_mod_two_pow]
      by_cases wide : width ≤ bit
      · rw [clear bit wide, Bool.and_false, Bool.false_and]
      · rw [decide_eq_true (Nat.lt_of_not_le wide), Bool.true_and, Bool.true_and, Bool.and_comm]

/-- The full register after a write of `part`. -/
def merge (full part shift mask : Nat) : Nat :=
  Nat.ldiff full mask ||| (part &&& mask) <<< shift

theorem testBit_merge (full part shift mask bit : Nat) :
    (merge full part shift mask).testBit bit =
      (full.testBit bit && !mask.testBit bit ||
        (decide (shift ≤ bit) && (part.testBit (bit - shift) && mask.testBit (bit - shift)))) := by
  rw [merge, Nat.testBit_or, Nat.testBit_ldiff, Nat.testBit_shiftLeft, Nat.testBit_and]

section Merge

variable {full part shift mask width : Nat}

theorem merge_lt {bits : Nat} (bound : full < 2 ^ bits) (narrow : mask < 2 ^ width)
    (inside : shift + width ≤ bits) : merge full part shift mask < 2 ^ bits := by
  apply Nat.lt_pow_two_of_testBit
  intro bit wide
  have high : full.testBit bit = false := testBit_beyond bound wide
  have out : mask.testBit (bit - shift) = false := testBit_beyond narrow (by omega)
  rw [testBit_merge, high, out]
  simp

/-- A merge puts the part in its place and changes nothing else exactly if the part passes the
mask and the place is the first or free. -/
theorem merge_exact_iff (narrow : mask < 2 ^ width) (apart : shift = 0 ∨ width ≤ shift) :
    (merge full part shift mask >>> shift &&& mask = part ∧
      ∀ bit, ¬ (shift ≤ bit ∧ bit < shift + width) →
        (merge full part shift mask).testBit bit = full.testBit bit) ↔
      part &&& mask = part ∧
        (shift = 0 ∨ full &&& mask = 0 ∧ (full >>> shift &&& mask) ||| part = part) := by
  have clear (bit : Nat) (wide : width ≤ bit) : mask.testBit bit = false :=
    testBit_beyond narrow wide
  constructor
  · rintro ⟨shown, unchanged⟩
    refine ⟨?_, apart.imp_right fun beyond => ⟨?_, ?_⟩⟩
    · rw [← shown, Nat.and_assoc, Nat.and_self]
    · apply Nat.eq_of_testBit_eq
      intro bit
      rw [Nat.testBit_and, Nat.zero_testBit]
      by_cases wide : width ≤ bit
      · rw [clear bit wide, Bool.and_false]
      · have same := unchanged bit (by omega)
        rw [testBit_merge, decide_eq_false (by omega), Bool.false_and, Bool.or_false] at same
        cases masked : mask.testBit bit with
        | false => rw [Bool.and_false]
        | true =>
            rw [masked] at same
            rw [← same]
            simp
    · apply Nat.eq_of_testBit_eq
      intro bit
      have here := congrArg (fun number => number.testBit bit) shown
      rw [Nat.testBit_and, Nat.testBit_shiftRight, testBit_merge, clear (shift + bit) (by omega)]
        at here
      rw [Nat.testBit_or, Nat.testBit_and, Nat.testBit_shiftRight, ← here]
      cases full.testBit (shift + bit) <;> cases mask.testBit bit <;> simp
  · rintro ⟨fits, free⟩
    have passes (bit : Nat) : (part.testBit bit && mask.testBit bit) = part.testBit bit := by
      rw [← Nat.testBit_and, fits]
    constructor
    · apply Nat.eq_of_testBit_eq
      intro bit
      rw [Nat.testBit_and, Nat.testBit_shiftRight, testBit_merge, Nat.add_sub_cancel_left,
        decide_eq_true (Nat.le_add_right shift bit), Bool.true_and, passes]
      obtain rfl | ⟨empty, within⟩ := free
      · rw [Nat.zero_add, Bool.and_or_distrib_right, Bool.and_assoc]
        simp [passes]
      · have covered := congrArg (Nat.testBit · bit) within
        rw [Nat.testBit_or, Nat.testBit_and, Nat.testBit_shiftRight] at covered
        have kept := passes bit
        revert covered kept
        cases full.testBit (shift + bit) <;> cases mask.testBit bit <;>
          cases part.testBit bit <;> cases mask.testBit (shift + bit) <;> simp
    · intro bit outside
      rw [testBit_merge, passes]
      have absent : (decide (shift ≤ bit) && part.testBit (bit - shift)) = false := by
        by_cases above : shift ≤ bit
        · rw [← passes, clear (bit - shift) (by omega)]
          simp
        · rw [decide_eq_false above, Bool.false_and]
      rw [absent, Bool.or_false]
      obtain rfl | ⟨empty, -⟩ := free
      · rw [clear bit (by omega)]
        simp
      · have none := congrArg (fun number => number.testBit bit) empty
        rw [Nat.testBit_and, Nat.zero_testBit] at none
        revert none
        cases full.testBit bit <;> cases mask.testBit bit <;> simp

end Merge

/-! Writing a part of a register. -/

section Write

variable (self : Registers cpu) {name : String} {place : Place}

theorem writeExact_pair {register : String} {shift : Nat} (value : Int)
    (entry : cpu.subRegisters.lookup name = some (.pair register shift)) :
    ¬ WriteExact self name place value := by
  rintro ⟨after, wrote, -⟩
  unfold Registers.setreg at wrote
  rw [entry] at wrote
  cases wrote

theorem writeExact_triple {register : String} {shift mask : Nat} (value : Int)
    (entry : cpu.subRegisters.lookup name = some (.triple register shift mask))
    (placed : Placed cpu place register shift mask) :
    WriteExact self name place value ↔
      (merge (self.value register) (value % 2 ^ place.width).toNat shift mask >>> shift &&&
          mask = (value % 2 ^ place.width).toNat ∧
        ∀ bit, ¬ (shift ≤ bit ∧ bit < shift + place.width) →
          (merge (self.value register) (value % 2 ^ place.width).toNat shift mask).testBit bit =
            (self.value register).testBit bit) := by
  have known : ¬ (cpu.registers.lookup register).isNone = true := by
    rw [placed.known]
    exact Bool.false_ne_true
  have merged : Nat.ldiff (self.value register) mask ||| andMask value mask <<< shift =
      merge (self.value register) (value % 2 ^ place.width).toNat shift mask := by
    rw [andMask_eq value placed.narrow, merge]
  have small := @merge_lt _ (value % 2 ^ place.width).toNat _ _ _ _ (self.bounded register)
    placed.narrow placed.inside
  generalize full : merge (self.value register) (value % 2 ^ place.width).toNat shift mask =
    written at merged small
  have wrote : self.setreg name value = .ok (self.setattr register written) := by
    unfold Registers.setreg Registers.writeRegister
    rw [entry]
    dsimp only
    rw [if_neg known, merged]
  have held : (self.setattr register written).value register = written := by
    refine (if_pos rfl).trans ?_
    have kept : (written : Int) % 2 ^ cpu.bits register = written :=
      Int.emod_eq_of_lt (Int.natCast_nonneg written) (by exact_mod_cast small)
    rw [kept, Int.toNat_natCast]
  have read : (self.setattr register written).getreg name =
      .ok (written >>> shift &&& mask) := by
    unfold Registers.getreg Registers.readRegister
    rw [entry]
    dsimp only
    rw [if_neg known, if_pos placed.masked, held]
  unfold WriteExact
  rw [← placed.whole, ← placed.start, wrote]
  constructor
  · rintro ⟨after, same, shown, unchanged, -⟩
    cases same
    rw [read] at shown
    rw [held] at unchanged
    exact ⟨Except.ok.inj shown, unchanged⟩
  · rintro ⟨shown, unchanged⟩
    refine ⟨_, rfl, ?_, ?_, ?_⟩
    · rw [read, shown]
    · rw [held]
      exact unchanged
    · intro other different
      exact if_neg different

/-- A write of a part of a register is exact exactly if the value fits. -/
theorem setreg_exact_iff (member : (name, place) ∈ cpu.places) (value : Int) :
    WriteExact self name place value ↔ Fits self name place.width value := by
  have table := List.all_eq_true.mp (entered cpu) (name, place) member
  unfold Entered at table
  unfold Fits
  cases entry : cpu.subRegisters.lookup name with
  | none =>
      rw [entry] at table
      cases table
  | some found =>
      rw [entry] at table
      cases found with
      | pair register shift =>
          refine iff_of_false (writeExact_pair self value entry) ?_
          rintro ⟨_, _, _, other, -⟩
          cases other
      | triple register shift mask =>
          have placed : Placed cpu place register shift mask := of_decide_eq_true table
          rw [writeExact_triple self value entry placed,
            merge_exact_iff placed.narrow placed.apart]
          constructor
          · intro fits
            exact ⟨register, shift, mask, rfl, fits⟩
          · rintro ⟨_, _, _, other, fits⟩
            cases other
            exact fits

end Write

/-- Registers that are all zero. -/
def Registers.zero (cpu : Intel) : Registers cpu where
  value := fun _ => 0
  bounded := fun name => Nat.two_pow_pos (cpu.bits name)

theorem setreg_exact_iff_ah :
    WriteExact (.zero .i386) "ah" ⟨"eax", 8, 8⟩ 0x1234 ↔ Fits (.zero .i386) "ah" 8 0x1234 :=
  setreg_exact_iff (.zero .i386) (by decide) 0x1234

/-- Writing `eax` on a 64-bit process. -/
theorem setreg_not_exact : ¬ WriteExact (.zero .x86_64) "eax" ⟨"rax", 0, 32⟩ 1 :=
  writeExact_pair (.zero .x86_64) 1 rfl

end Segvault.Ptrace
