import Segvault.Ptrace.Memory
import Segvault.Occurrence

namespace Segvault.Ptrace

open Bytes

/-! Searching the memory of a mapping through a window of bounded size. -/

structure MemoryMapping where
  start : Nat
  end_ : Nat
  deriving DecidableEq, Repr

section Loop

variable (readBytes : Nat → Nat → List UInt8) (bytestr : List UInt8) (bufLen : Nat)

/-- The loop of `search`, for as many turns as `fuel`; a generator that ends is the list of
what it yields. -/
def searchFrom : Nat → Nat → Nat → Option (List Nat)
  | 0, _, _ => none
  | fuel + 1, covered, remaining =>
      if bytestr.length ≤ remaining then
        let requested := if bufLen < remaining then bufLen else remaining
        let data := readBytes covered requested
        if data = [] then some []
        else
          match find data bytestr with
          | none =>
              let skip := requested - bytestr.length + 1
              searchFrom fuel (covered + skip) (remaining - skip)
          | some offset =>
              let skip := offset + bytestr.length
              (searchFrom fuel (covered + skip) (remaining - skip)).map
                fun rest => (covered + offset) :: rest
      else some []

end Loop

/-- Each turn gets at least one byte further. -/
def MemoryMapping.search (self : MemoryMapping) (readBytes : Nat → Nat → List UInt8)
    (bytestr : List UInt8) : Option (List Nat) :=
  let bytestrLen := bytestr.length
  let bufLen := 64 * 1024
  let bufLen := if bufLen < bytestrLen then bytestrLen else bufLen
  let remaining := self.end_ - self.start
  searchFrom readBytes bytestr bufLen (remaining + 1) self.start remaining

/-! The greedy occurrences of a needle below some address. -/

variable (memory : Memory) (needle : List UInt8) (stop : Nat)

def OccursAt (address : Nat) : Prop :=
  address + needle.length ≤ stop ∧ read memory address needle.length = needle

/-- From a cursor on, always the leftmost occurrence that does not overlap the one before. -/
inductive Greedy : Nat → List Nat → Prop
  | done {cursor : Nat} (absent : ∀ address ≥ cursor, ¬ OccursAt memory needle stop address) :
      Greedy cursor []
  | hit {cursor address : Nat} {rest : List Nat} (ahead : cursor ≤ address)
      (occurs : OccursAt memory needle stop address)
      (leftmost : ∀ earlier, cursor ≤ earlier → earlier < address →
        ¬ OccursAt memory needle stop earlier)
      (more : Greedy (address + needle.length) rest) :
      Greedy cursor (address :: rest)

namespace Greedy

variable {memory needle stop} {cursor next : Nat} {result : List Nat}

theorem skip (ahead : cursor ≤ next)
    (absent : ∀ address, cursor ≤ address → address < next →
      ¬ OccursAt memory needle stop address)
    (greedy : Greedy memory needle stop next result) :
    Greedy memory needle stop cursor result := by
  cases greedy with
  | done none =>
      refine .done fun address above => ?_
      by_cases before : address < next
      · exact absent address above before
      · exact none address (Nat.le_of_not_lt before)
  | hit further occurs leftmost more =>
      refine .hit (ahead.trans further) occurs (fun earlier above below => ?_) more
      by_cases before : earlier < next
      · exact absent earlier above before
      · exact leftmost earlier (Nat.le_of_not_lt before) below

theorem ge_of_mem (greedy : Greedy memory needle stop cursor result) :
    ∀ address ∈ result, cursor ≤ address := by
  induction greedy with
  | done absent => simp
  | hit ahead occurs leftmost more induction =>
      intro address member
      cases List.mem_cons.mp member with
      | inl same => rwa [same]
      | inr later =>
          have above := induction address later
          omega

/-- The addresses increase and their occurrences do not overlap. -/
theorem pairwise (greedy : Greedy memory needle stop cursor result) :
    result.Pairwise fun first second => first + needle.length ≤ second := by
  induction greedy with
  | done absent => exact .nil
  | hit ahead occurs leftmost more induction =>
      exact List.pairwise_cons.mpr ⟨fun address member => more.ge_of_mem address member, induction⟩

end Greedy

section Spec

variable {memory needle stop} {bufLen covered requested : Nat}

/-- What a window shows of the memory behind it. -/
theorem occurs_window {index : Nat} (fits : index + needle.length ≤ requested)
    (inside : covered + requested ≤ stop) :
    Occurs (read memory covered requested) needle index ↔
      OccursAt memory needle stop (covered + index) := by
  rw [Occurs, read_slice memory covered fits, OccursAt]
  constructor
  · intro same
    exact ⟨by omega, same⟩
  · exact And.right

theorem searchFrom_spec (nonempty : needle ≠ []) (room : needle.length ≤ bufLen)
    (fuel : Nat) {covered remaining : Nat} (left : remaining = stop - covered)
    (enough : remaining < fuel) :
    ∃ result, searchFrom (read memory) needle bufLen fuel covered remaining = some result ∧
      Greedy memory needle stop covered result := by
  have positive : 0 < needle.length := List.length_pos_iff.mpr nonempty
  induction fuel generalizing covered remaining with
  | zero => omega
  | succ fuel induction =>
      rw [searchFrom]
      by_cases more : needle.length ≤ remaining
      · rw [if_pos more]
        dsimp only
        generalize window : (if bufLen < remaining then bufLen else remaining) = requested
        have bounds : needle.length ≤ requested ∧ requested ≤ remaining := by
          rw [← window]
          split <;> omega
        have inside : covered + requested ≤ stop := by omega
        have filled : read memory covered requested ≠ [] := by
          intro empty
          have length := congrArg List.length empty
          rw [length_read, List.length_nil] at length
          omega
        rw [if_neg filled]
        cases found : find (read memory covered requested) needle with
        | none =>
            obtain ⟨result, searched, greedy⟩ :=
              @induction (covered + (requested - needle.length + 1))
                (remaining - (requested - needle.length + 1)) (by omega) (by omega)
            refine ⟨result, searched, greedy.skip (by omega) fun address above below => ?_⟩
            have absent := find_eq_none.mp found (address - covered)
              (by rw [length_read]; omega)
            rwa [occurs_window (by omega) inside, Nat.add_sub_cancel' above] at absent
        | some offset =>
            obtain ⟨bound, occurs, first⟩ := find_eq_some.mp found
            have fits := occurs.bounded bound
            rw [length_read] at fits
            obtain ⟨result, searched, greedy⟩ :=
              @induction (covered + (offset + needle.length))
                (remaining - (offset + needle.length)) (by omega) (by omega)
            refine ⟨(covered + offset) :: result, ?_, .hit (by omega)
              ((occurs_window fits inside).mp occurs) (fun earlier above below => ?_) ?_⟩
            · exact congrArg (Option.map fun rest => (covered + offset) :: rest) searched
            · have absent := first (earlier - covered) (by omega)
              rwa [occurs_window (by omega) inside, Nat.add_sub_cancel' above] at absent
            · rwa [← Nat.add_assoc] at greedy
      · refine ⟨[], if_neg more, .done fun address above occurs => ?_⟩
        have fits := occurs.1
        omega

/-- The search ends and yields the greedy occurrences of the needle in the mapping. -/
theorem search_greedy (mapping : MemoryMapping) (memory : Memory) {needle : List UInt8}
    (nonempty : needle ≠ []) :
    ∃ result, mapping.search (read memory) needle = some result ∧
      Greedy memory needle mapping.end_ mapping.start result ∧
      result.Pairwise fun first second => first + needle.length ≤ second := by
  have room : needle.length ≤
      if 64 * 1024 < needle.length then needle.length else 64 * 1024 := by
    split <;> omega
  obtain ⟨result, searched, greedy⟩ :=
    searchFrom_spec nonempty room (mapping.end_ - mapping.start + 1) rfl (Nat.lt_succ_self _)
  exact ⟨result, searched, greedy, greedy.pairwise⟩

theorem search_greedy_overlapping :
    ∃ result, MemoryMapping.search ⟨2, 9⟩ (read fun _ => 65) [65, 65] = some result ∧
      Greedy (fun _ => 65) [65, 65] 9 2 result ∧
      result.Pairwise fun first second => first + 2 ≤ second :=
  search_greedy ⟨2, 9⟩ (fun _ => 65) (by decide)

end Spec

end Segvault.Ptrace
