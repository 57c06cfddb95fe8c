import Mathlib.Data.List.Basic

namespace Segvault.OverlapCopy

/-! Copying from a list to its end, where the copy may run into itself. -/

variable {α : Type*}

/-- The element at some distance from the end, once more. -/
def copyOne (distance : Nat) (out : List α) : List α :=
  out ++ (out[out.length - distance]?).toList

/-- One element after the other, each of them `distance` before its place. -/
def copy (distance : Nat) : Nat → List α → List α
  | 0, out => out
  | length + 1, out => copyOne distance (copy distance length out)

theorem append_flatten_replicate (times : Nat) (last : List α) :
    last ++ (List.replicate times last).flatten =
      (List.replicate times last).flatten ++ last := by
  rw [← List.flatten_cons, ← List.replicate_succ, List.replicate_succ',
    List.flatten_append, List.flatten_singleton]

/-- The copy is the last elements again and again, cut where enough are there. -/
theorem copy_eq (front : List α) {last : List α} (times : Nat) {length : Nat}
    (enough : length ≤ times * last.length) :
    copy last.length length (front ++ last) =
      front ++ last ++ (List.replicate times last).flatten.take length := by
  induction length with
  | zero => rw [copy, List.take_zero, List.append_nil]
  | succ length induction =>
      have size : (List.replicate times last).flatten.length = times * last.length := by
        rw [List.length_flatten, List.map_replicate, List.sum_replicate_nat]
      have turned := append_flatten_replicate times last
      rw [copy, induction (by omega), copyOne]
      generalize (List.replicate times last).flatten = cycle at size turned ⊢
      have place : (front ++ last ++ cycle.take length).length - last.length =
          front.length + length := by
        simp only [List.length_append, List.length_take]
        omega
      have copied : (last ++ cycle.take length)[length]? = cycle[length]? := by
        have positive := Nat.pos_of_lt_mul_left (Nat.lt_of_succ_le enough)
        rw [← List.take_length_add_append, turned, List.getElem?_take_of_lt (by omega),
          List.getElem?_append_left (by omega)]
      rw [place, List.append_assoc front, List.getElem?_append_right (by omega),
        Nat.add_sub_cancel_left, copied, List.take_add_one, List.append_assoc, List.append_assoc,
        List.append_assoc]

end Segvault.OverlapCopy
