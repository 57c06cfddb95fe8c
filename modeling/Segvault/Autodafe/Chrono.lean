import Segvault.Autodafe.Engine

namespace Segvault.Autodafe

/-! The transmission: the blocks to send and to receive, in the order of the script. -/

def ChronoType.number : ChronoType → Nat
  | .send => 0
  | .recv => 1

-- what `send_fuzz` and `recv_fuzz` return for a block, by the number of the turn
structure Peer where
  sendFuzz : Nat → StructBlock → Int
  recvFuzz : Nat → StructBlock → Int

-- the source reads the block it has looked for without a test, first to debug
def parseChrono (peer : Peer) (invert type : Nat) (blocks : List StructBlock) :
    Nat → List StructChrono → Except Halt Int
  | _, [] => .ok 0
  | turn, chrono :: rest =>
      match blocks.find? fun block => block.id = chrono.id with
      | none => .error .undefined
      | some block =>
          if (chrono.type.number + invert) % 2 = 0 then
            if 0 < block.size then
              let bytes := peer.sendFuzz turn block
              if bytes = -2 then .ok 1
              else if bytes < 0 then .ok bytes
              else parseChrono peer invert type blocks (turn + 1) rest
            else parseChrono peer invert type blocks (turn + 1) rest
          else if 0 < block.size ∧ type ≠ 2 then
            let bytes := peer.recvFuzz turn block
            if bytes = 0 then .ok 2
            else if bytes < 0 then .ok bytes
            else parseChrono peer invert type blocks (turn + 1) rest
          else parseChrono peer invert type blocks (turn + 1) rest

section Transmission

variable {peer : Peer} {invert type : Nat} {blocks : List StructBlock}

/-- No exchange ends in an error. -/
def Peer.Quiet (peer : Peer) : Prop :=
  ∀ turn block, peer.sendFuzz turn block ≠ -1 ∧ peer.recvFuzz turn block ≠ -1

theorem parseChrono_found {chronos : List StructChrono} (turn : Nat)
    (found : ∀ chrono ∈ chronos, ∃ block,
      (blocks.find? fun block => block.id = chrono.id) = some block) :
    ∃ result, parseChrono peer invert type blocks turn chronos = .ok result ∧
      (peer.Quiet → result ≠ -1) := by
  induction chronos generalizing turn with
  | nil => exact ⟨0, rfl, fun _ => by decide⟩
  | cons chrono chronos induction =>
      have rest := induction (turn + 1) fun other member =>
        found other (List.mem_cons_of_mem _ member)
      obtain ⟨block, here⟩ := found chrono List.mem_cons_self
      rw [parseChrono, here]
      dsimp only
      split
      · split
        · split
          · exact ⟨1, rfl, fun _ => by decide⟩
          · split
            · exact ⟨_, rfl, fun quiet => (quiet turn block).1⟩
            · exact rest
        · exact rest
      · split
        · split
          · exact ⟨2, rfl, fun _ => by decide⟩
          · split
            · exact ⟨_, rfl, fun quiet => (quiet turn block).2⟩
            · exact rest
        · exact rest

/-- A peer that takes and answers every block. -/
def willing : Peer where
  sendFuzz _ _ := 1
  recvFuzz _ _ := 1

theorem willing_quiet : willing.Quiet := by
  have positive : (1 : Int) ≠ -1 := by decide
  exact fun turn block => ⟨positive, positive⟩

theorem parseChrono_willing {chronos : List StructChrono} (turn : Nat) {result : Int}
    (parsed : parseChrono willing invert type blocks turn chronos = .ok result) :
    ∀ chrono ∈ chronos, ∃ block,
      (blocks.find? fun block => block.id = chrono.id) = some block := by
  induction chronos generalizing turn with
  | nil => exact fun _ member => (nomatch member)
  | cons chrono chronos induction =>
      rw [parseChrono] at parsed
      cases here : blocks.find? fun block => block.id = chrono.id with
      | none =>
          rw [here] at parsed
          cases parsed
      | some block =>
          rw [here] at parsed
          have rest : parseChrono willing invert type blocks (turn + 1) chronos =
              .ok result := by
            simpa [willing] using parsed
          intro other member
          cases List.mem_cons.mp member with
          | inl same => exact ⟨block, same ▸ here⟩
          | inr later => exact induction (turn + 1) rest other later

end Transmission

end Segvault.Autodafe
