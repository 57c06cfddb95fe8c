import Segvault.MaximalRuns
import Mathlib.Tactic.Ring

namespace Segvault.Hachoir

open MaximalRuns

/-! The file allocation table of fat.py, and its cluster runs. -/

/-- The entries of FAT.createFields, in its groups of 1000. -/
def Fat.groups (entries : List Nat) : List (List Nat) :=
  if entries = [] then [] else entries.take 1000 :: Fat.groups (entries.drop 1000)
termination_by entries.length
decreasing_by
  rename_i nonempty
  have positive := List.length_pos_of_ne_nil nonempty
  rw [List.length_drop]
  omega

/-- `self.fat[next/1000][next%1000].value`, with none for a missing field. -/
def Fat.value (groups : List (List Nat)) (next : Nat) : Option Nat := do
  let group ← groups[next / 1000]?
  group[next % 1000]?

structure FatFs where
  version : Nat
  known : version = 12 ∨ version = 16 ∨ version = 32
  entries : List Nat
  fits : ∀ entry ∈ entries, entry < 2 ^ version
  -- the address after the root directory, where the cluster 2 is
  dataAddress : Nat
  clusterSize : Nat

inductive ClustersEnd
  | finished
  | missingField
  | unfinished
  deriving DecidableEq, Repr

/-- What FAT_FS.clusters yields. -/
structure ClusterRun where
  address : Int
  size : Nat
  last : Bool
  deriving DecidableEq, Repr

namespace FatFs

variable (self : FatFs)

def dataStart : Int := self.dataAddress - 2 * self.clusterSize

def maxEntry : Nat := (1 <<< min 28 self.version) - 16

def clusterRun (cluster clusNb : Nat) (last : Bool) : ClusterRun where
  address := self.dataStart + cluster * self.clusterSize
  size := clusNb * self.clusterSize
  last := last

/-- The loop of clusters, which a cycle of the table keeps running. -/
def clustersLoop : Nat → Nat → Nat → Nat → List ClusterRun × ClustersEnd
  | 0, _, _, _ => ([], .unfinished)
  | fuel + 1, cluster, clusNb, next =>
      match Fat.value (Fat.groups self.entries) next with
      | none => ([], .missingField)
      | some next =>
          if ¬ (1 < next ∧ next < self.maxEntry) then
            ([self.clusterRun cluster clusNb true], .finished)
          else if cluster + clusNb = next then clustersLoop fuel cluster (clusNb + 1) next
          else
            let (runs, ending) := clustersLoop fuel next 1 next
            (self.clusterRun cluster clusNb false :: runs, ending)

def clusters (fuel cluster : Nat) : List ClusterRun × ClustersEnd :=
  if 1 < cluster ∧ cluster < self.maxEntry then self.clustersLoop fuel cluster 1 cluster
  else ([], .finished)

/-! The chain the table describes. -/

/-- What an entry denotes: its value modulo 2^28, as FatEntry displays it. -/
def denoted (entry : Nat) : Nat := entry % 2 ^ min 28 self.version

def Link (cluster : Nat) : Prop := 1 < cluster ∧ cluster < self.maxEntry

instance : DecidablePred self.Link :=
  fun _ => inferInstanceAs (Decidable (_ ∧ _))

/-- The chain from a cluster, when the entries are read in a certain way. -/
inductive Chain (reads : Nat → Nat) : Nat → List Nat → Prop
  | last {cluster entry : Nat} (here : self.entries[cluster]? = some entry)
      (ends : ¬ self.Link (reads entry)) : Chain reads cluster [cluster]
  | link {cluster entry : Nat} {rest : List Nat} (here : self.entries[cluster]? = some entry)
      (links : self.Link (reads entry)) (goes : Chain reads (reads entry) rest) :
      Chain reads cluster (cluster :: rest)

/-- Each run at its address and with its size, the last one flagged. -/
def flagged : List Run → List ClusterRun
  | [] => []
  | run :: runs => {
      address := self.dataAddress + ((run.first : Int) - 2) * self.clusterSize
      size := run.count * self.clusterSize
      last := runs.isEmpty } :: flagged runs

/-- clusters ends, with the maximal runs of the chain. -/
def Follows (start : Nat) (chain : List Nat) : Prop :=
  ∃ fuel runs, RunsOf runs chain ∧ self.clusters fuel start = (self.flagged runs, .finished)

/-- The entries that lead on in the chain have no bit above the 28 of a cluster number. -/
def Plain (chain : List Nat) : Prop :=
  ∀ cluster ∈ chain, ∀ entry, self.entries[cluster]? = some entry →
    self.Link (self.denoted entry) → entry < 2 ^ 28

end FatFs

theorem Fat.value_groups (entries : List Nat) (next : Nat) :
    Fat.value (Fat.groups entries) next = entries[next]? := by
  induction entries using Fat.groups.induct generalizing next with
  | case1 => simp [Fat.groups, Fat.value]
  | case2 entries nonempty induction =>
      rw [Fat.groups, if_neg nonempty]
      by_cases first : next < 1000
      · have quotient : next / 1000 = 0 := Nat.div_eq_of_lt first
        have remainder : next % 1000 = next := Nat.mod_eq_of_lt first
        simp [Fat.value, quotient, remainder, first]
      · obtain ⟨more, rfl⟩ : ∃ more, next = more + 1000 := ⟨next - 1000, by omega⟩
        have quotient : (more + 1000) / 1000 = more / 1000 + 1 := by omega
        have remainder : (more + 1000) % 1000 = more % 1000 := by omega
        have later := induction more
        rw [Fat.value] at later ⊢
        rw [quotient, remainder, List.getElem?_cons_succ, later, List.getElem?_drop, Nat.add_comm]

namespace FatFs

variable {self : FatFs} {cluster : Nat} {chain : List Nat}

theorem Chain.length_pos {reads : Nat → Nat} (walks : self.Chain reads cluster chain) :
    0 < chain.length := by
  cases walks <;> simp

theorem flagged_cons (run : Run) (runs : List Run) (nonempty : runs ≠ []) :
    self.flagged (run :: runs) =
      self.clusterRun run.first run.count false :: self.flagged runs := by
  have some : runs.isEmpty = false := by simpa using nonempty
  rw [flagged, some, clusterRun, dataStart]
  congr 2
  ring

/-- The loop follows the entries as they are, if it may go on long enough. -/
theorem clustersLoop_eq {next : Nat} (walks : self.Chain id next chain) (fuel first count : Nat)
    (here : first + count = next + 1) :
    (chain.length ≤ fuel → self.clustersLoop fuel first count next =
      (self.flagged (grow ⟨first, count⟩ chain.tail), .finished)) ∧
    (fuel < chain.length → (self.clustersLoop fuel first count next).2 = .unfinished) := by
  induction walks generalizing fuel first count with
  | @last cluster entry found ends =>
      cases fuel with
      | zero => exact ⟨fun enough => absurd enough (by simp), fun _ => rfl⟩
      | succ fuel =>
          refine ⟨fun _ => ?_, fun short => absurd short (by simp)⟩
          rw [clustersLoop, Fat.value_groups, found]
          have stops : ¬ (1 < entry ∧ entry < self.maxEntry) := ends
          simp only [if_pos stops, List.tail_cons, grow, flagged, List.isEmpty_nil, clusterRun,
            dataStart]
          congr 3
          ring
  | @link cluster entry rest found links goes induction =>
      cases fuel with
      | zero => exact ⟨fun enough => absurd enough (by simp), fun _ => rfl⟩
      | succ fuel =>
          obtain ⟨tail, rfl⟩ : ∃ tail, rest = entry :: tail := by
            cases goes <;> exact ⟨_, rfl⟩
          have links : 1 < entry ∧ entry < self.maxEntry := links
          rw [clustersLoop, Fat.value_groups, found, List.tail_cons, grow]
          simp only [if_neg (not_not_intro links), List.length_cons, Nat.add_le_add_iff_right,
            Nat.add_lt_add_iff_right]
          by_cases adjacent : first + count = entry
          · rw [if_pos adjacent, if_pos adjacent.symm]
            exact induction fuel first (count + 1) (by simp only [id]; omega)
          · rw [if_neg adjacent, if_neg (Ne.symm adjacent)]
            obtain ⟨ended, unended⟩ := induction fuel entry 1 rfl
            refine ⟨fun enough => ?_, fun short => unended short⟩
            obtain ⟨more, others, same⟩ := grow_head ⟨entry, 1⟩ tail
            rw [flagged_cons _ _ (by rw [same]; simp)]
            simp only [id] at ended
            rw [ended enough]
            rfl

/-- What clusters gives from a cluster that is one, if it ends. -/
theorem clusters_eq (links : self.Link cluster) (walks : self.Chain id cluster chain) (fuel : Nat) :
    (chain.length ≤ fuel →
      self.clusters fuel cluster = (self.flagged (runs chain), .finished)) ∧
    (fuel < chain.length → (self.clusters fuel cluster).2 = .unfinished) := by
  obtain ⟨tail, rfl⟩ : ∃ tail, chain = cluster :: tail := by
    cases walks <;> exact ⟨_, rfl⟩
  have started : 1 < cluster ∧ cluster < self.maxEntry := links
  rw [clusters, if_pos started]
  exact clustersLoop_eq walks fuel cluster 1 rfl

theorem maxEntry_lt : self.maxEntry < 2 ^ min 28 self.version := by
  rw [maxEntry, Nat.one_shiftLeft]
  rcases self.known with known | known | known <;> rw [known] <;> decide

theorem maxEntry_le : self.maxEntry < 2 ^ 28 :=
  Nat.lt_of_lt_of_le maxEntry_lt (Nat.pow_le_pow_right (by decide) (Nat.min_le_left _ _))

theorem denoted_of_lt {entry : Nat} (here : self.entries[cluster]? = some entry)
    (small : entry < 2 ^ 28) : self.denoted entry = entry := by
  have fits := self.fits entry (List.mem_of_getElem? here)
  refine Nat.mod_eq_of_lt ?_
  rcases self.known with known | known | known <;> rw [known] at fits ⊢ <;> simpa using by omega

theorem denoted_of_link {entry : Nat} (links : self.Link entry) : self.denoted entry = entry :=
  Nat.mod_eq_of_lt (Nat.lt_trans links.2 maxEntry_lt)

theorem plain_cons {rest : List Nat} :
    self.Plain (cluster :: rest) ↔
      (∀ entry, self.entries[cluster]? = some entry → self.Link (self.denoted entry) →
        entry < 2 ^ 28) ∧ self.Plain rest := by
  simp [Plain]

/-- The entries as they are give the same chain, or a shorter one if it is not plain. -/
theorem Chain.raw (walks : self.Chain self.denoted cluster chain) :
    self.Plain chain ∧ self.Chain id cluster chain ∨
      ¬ self.Plain chain ∧ ∃ shorter, self.Chain id cluster shorter ∧
        shorter.length < chain.length := by
  induction walks with
  | @last cluster entry here ends =>
      refine .inl ⟨?_, .last here fun links => ends ?_⟩
      · rw [plain_cons]
        refine ⟨fun other found links => ?_, fun _ absent => absurd absent List.not_mem_nil⟩
        rw [Option.some.inj (here.symm.trans found)] at ends
        exact absurd links ends
      · have raw : self.Link entry := links
        rwa [denoted_of_link raw]
  | @link cluster entry rest here links goes induction =>
      by_cases small : entry < 2 ^ 28
      · have same := denoted_of_lt here small
        have plain : self.Plain (cluster :: rest) ↔ self.Plain rest := by
          rw [plain_cons]
          refine and_iff_right fun other found _ => ?_
          rwa [← Option.some.inj (here.symm.trans found)]
        rw [plain]
        rw [same] at links induction
        refine induction.imp (And.imp_right fun raw => .link here links raw)
          (And.imp_right fun ⟨shorter, raw, fewer⟩ => ?_)
        exact ⟨cluster :: shorter, .link here links raw, Nat.succ_lt_succ fewer⟩
      · refine .inr ⟨fun plain => small ((plain_cons.mp plain).1 entry here links), ?_⟩
        refine ⟨[cluster], .last here fun raw => ?_, Nat.succ_lt_succ goes.length_pos⟩
        exact small (Nat.lt_trans raw.2 maxEntry_le)

theorem sum_size (found : List Run) :
    ((self.flagged found).map ClusterRun.size).sum =
      (found.map Run.count).sum * self.clusterSize := by
  induction found with
  | nil => simp [flagged]
  | cons run found induction =>
      simp only [flagged, List.map_cons, List.sum_cons, induction]
      ring

theorem Follows.plain {start : Nat} (sized : 0 < self.clusterSize) (links : self.Link start)
    (walks : self.Chain self.denoted start chain) (follows : self.Follows start chain) :
    self.Plain chain := by
  refine (walks.raw.resolve_right ?_).1
  rintro ⟨-, shorter, raw, fewer⟩
  obtain ⟨fuel, found, runsOf, given⟩ := follows
  have enough : shorter.length ≤ fuel := by
    by_contra short
    have unfinished := (clusters_eq links raw fuel).2 (by omega)
    rw [given] at unfinished
    cases unfinished
  have same := given.symm.trans ((clusters_eq links raw fuel).1 enough)
  have sizes := congrArg (fun (outcome : List ClusterRun × ClustersEnd) =>
    (outcome.1.map ClusterRun.size).sum) same
  simp only [sum_size, runsOf.sum_count, (runs_runsOf shorter).sum_count] at sizes
  exact absurd (Nat.eq_of_mul_eq_mul_right sized sizes) (by omega)

/-- The runs of clusters are those of the chain if its entries are plain; and only then, for
clusters of any size but 0. -/
theorem clusters_follows_iff (self : FatFs) (start : Nat) (chain : List Nat)
    (links : self.Link start) (walks : self.Chain self.denoted start chain) :
    (self.Plain chain → self.Follows start chain) ∧
      (0 < self.clusterSize → (self.Follows start chain ↔ self.Plain chain)) := by
  have enough : self.Plain chain → self.Follows start chain := by
    intro plain
    have raw := (walks.raw.resolve_right fun other => other.1 plain).2
    exact ⟨chain.length, runs chain, runs_runsOf chain,
      (clusters_eq links raw chain.length).1 (Nat.le_refl _)⟩
  exact ⟨enough, fun sized => ⟨fun follows => follows.plain sized links walks, enough⟩⟩

/-- A FAT32 table with the chain 2, 3, 5, whose entry for 2 has a bit set that is reserved. -/
def reserved : FatFs where
  version := 32
  known := .inr (.inr rfl)
  entries := [0x0ffffff8, 0x0fffffff, 0x10000003, 5, 0, 0x0fffffff]
  fits := by decide
  dataAddress := 65536
  clusterSize := 4096

theorem reserved_chain : reserved.Chain reserved.denoted 2 [2, 3, 5] :=
  .link rfl (by decide) (.link rfl (by decide) (.last rfl (by decide)))

theorem clusters_not_follows :
    ¬ ∀ (self : FatFs) (start : Nat) (chain : List Nat), self.Link start →
      self.Chain self.denoted start chain → self.Follows start chain := by
  intro all
  have follows := all reserved 2 [2, 3, 5] (by decide) reserved_chain
  have plain := follows.plain (by decide) (by decide) reserved_chain
  exact absurd (plain 2 (by decide) _ rfl (by decide)) (by decide)

theorem clusters_follows_iff_reserved :
    (reserved.Plain [2, 3, 5] → reserved.Follows 2 [2, 3, 5]) ∧
      (0 < reserved.clusterSize → (reserved.Follows 2 [2, 3, 5] ↔ reserved.Plain [2, 3, 5])) :=
  clusters_follows_iff reserved 2 [2, 3, 5] (by decide) reserved_chain

end FatFs

end Segvault.Hachoir
