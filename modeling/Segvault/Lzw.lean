import Mathlib.Data.List.Basic

namespace Segvault.Lzw

variable {α : Type}

/-! The tables the two ends of an LZW stream build. Every chain sent, with the symbol
after it, becomes an entry; the receiver learns that symbol one chain later than
the sender, so that its table lags by one entry. -/

/-- The entry that a chain gives rise to once the symbol after it is known. -/
def grown : List α → List α → List (List α)
  | symbol :: chain, next :: _ => [symbol :: chain ++ [next]]
  | _, _ => []

/-- What a receiver takes an index for: the entry it has there, or else its last chain
    followed by the first symbol of that chain. -/
def resolve (entries : List (List α)) (last : List α) (index : Nat) : Option (List α) :=
  match entries[index]? with
  | some chain => some chain
  | none => last.head?.map fun first => last ++ [first]

theorem grown_nil (rest : List α) : grown [] rest = [] := by
  cases rest <;> rfl

theorem grown_append {last chain : List α} (started : last ≠ []) (symbol : α)
    (rest : List α) : grown last (symbol :: chain ++ rest) = [last ++ [symbol]] := by
  cases last with
  | nil => exact absurd rfl started
  | cons first more => rfl

theorem grown_ne_nil {chain rest entry : List α} (grew : entry ∈ grown chain rest) :
    entry ≠ [] := by
  cases chain with
  | nil =>
      rw [grown_nil] at grew
      exact absurd grew List.not_mem_nil
  | cons symbol chain =>
      cases rest with
      | nil => exact absurd grew List.not_mem_nil
      | cons next rest =>
          rw [grown, List.mem_singleton] at grew
          rw [grew]
          exact List.cons_ne_nil _ _

theorem length_grown_le (chain rest : List α) : (grown chain rest).length ≤ 1 := by
  cases chain with
  | nil =>
      rw [grown_nil]
      exact Nat.zero_le 1
  | cons symbol chain =>
      cases rest with
      | nil => exact Nat.zero_le 1
      | cons next rest => exact Nat.le_refl 1

/-- The lag does no harm: what the sender's table gives for an index, where it is what
    is sent next, is what the receiver takes the index for. -/
theorem resolve_lagging {entries : List (List α)} {last chain rest : List α} {index : Nat}
    (known : (entries ++ grown last (chain ++ rest))[index]? = some chain) :
    resolve entries last index = some chain := by
  by_cases within : index < entries.length
  · rw [List.getElem?_append_left within] at known
    rw [resolve, known]
  · rw [List.getElem?_append_right (by omega)] at known
    have missing : entries[index]? = none := List.getElem?_eq_none (by omega)
    rw [resolve, missing]
    have grew := List.mem_of_getElem? known
    cases last with
    | nil =>
        rw [grown_nil] at grew
        exact absurd grew List.not_mem_nil
    | cons first more =>
        cases chain with
        | nil => exact absurd rfl (grown_ne_nil grew)
        | cons symbol chain =>
            rw [grown_append (List.cons_ne_nil _ _), List.mem_singleton] at grew
            obtain ⟨rfl, tail⟩ := List.cons.inj grew
            simp only [List.head?_cons, Option.map_some, Option.some.injEq]
            exact grew.symm

end Segvault.Lzw
