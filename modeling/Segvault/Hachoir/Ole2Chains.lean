import Segvault.MaximalRuns
import Mathlib.Data.List.Perm.Subperm

namespace Segvault.Hachoir

open MaximalRuns

/-! The sector numbers of ole2.py, and the tables they are read from. -/

namespace Sect

def unused : Nat := 0xFFFFFFFF
def endOfChain : Nat := 0xFFFFFFFE
def bfatSector : Nat := 0xFFFFFFFD
def difatSector : Nat := 0xFFFFFFFC

def specials : List Nat := [endOfChain, unused, bfatSector, difatSector]

end Sect

/-- One sector of a table: its fields are `index[start]`, `index[start + 1]` and so on. -/
structure SectFat where
  start : Nat
  values : List Nat
  deriving DecidableEq, Repr

def SectFat.field (self : SectFat) (index : Nat) : Option Nat :=
  if self.start ≤ index then self.values[index - self.start]? else none

/-- The loops of readBFAT and readSFAT. -/
def readFat (count : Nat) : Nat → List (List Nat) → List SectFat
  | _, [] => []
  | start, values :: sectors => ⟨start, values⟩ :: readFat count (start + count) sectors

inductive BlockError
  | invalidBlockIndex (errPrefix : String) (block previous : Nat)
  | foundLoop (errPrefix : String) (previous block : Nat)
  deriving DecidableEq, Repr

inductive ChainEnd
  | finished
  | parserError (error : BlockError)
  | unfinished
  deriving DecidableEq, Repr

/-- `fat[index]["index[%u]" % block]`, with none for a LookupError. -/
def fatEntry (fat : List SectFat) (itemsPerFat block : Nat) : Option Nat := do
  let sector ← fat[block / itemsPerFat]?
  sector.field block

/-- The loop of getChain: the blocks it yields and how it ends. -/
def chainLoop (errPrefix : String) (entry : Nat → Option Nat) :
    Nat → List Nat → Nat → Nat → List Nat × ChainEnd
  | 0, _, _, _ => ([], .unfinished)
  | fuel + 1, blockSet, previous, block =>
      if block = Sect.endOfChain then ([], .finished)
      else if block ∈ Sect.specials then
        ([], .parserError (.invalidBlockIndex errPrefix block previous))
      else if block ∈ blockSet then ([], .parserError (.foundLoop errPrefix previous block))
      else
        match entry block with
        | none => ([block], .finished)
        | some next =>
            let (blocks, ending) := chainLoop errPrefix entry fuel (block :: blockSet) block next
            (block :: blocks, ending)

/-! The file, and the fragments it is cut into. -/

structure Ole2File where
  bbShift : Nat
  sbShift : Nat
  threshold : Nat
  -- the sectors of the two tables, as they are read
  bbSectors : List (List Nat)
  ssSectors : List (List Nat)
  valid : 6 ≤ bbShift
  bbFull : ∀ sector ∈ bbSectors, sector.length = (8 <<< bbShift) / 32
  ssFull : ∀ sector ∈ ssSectors, sector.length = (8 <<< bbShift) / 32

structure Ole2Property where
  start : Nat
  size : Nat
  deriving DecidableEq, Repr

/-- A CustomFragment, in bits. -/
structure Ole2Fragment where
  name : String
  address : Nat
  size : Nat
  description : String
  deriving DecidableEq, Repr

/-- What the two parseProperty do not share: the blocks, and where they are. -/
structure BlockKind where
  adjective : String
  size : Nat
  seek : Nat → Nat

def BlockKind.fragment (kind : BlockKind) (name : String) (first previous size : Nat) :
    Ole2Fragment where
  name := name
  address := kind.seek first
  size := size
  description := kind.adjective ++ " blocks " ++ toString first ++ ".." ++ toString previous ++
    " (" ++ toString (previous - first + 1) ++ ")" ++
    " of " ++ toString (kind.size / 8) ++ " bytes"

/-- The loop of parseProperty over a chain; an error of the chain leaves the open run. -/
def BlockKind.fragments (kind : BlockKind) (name : String) (ending : ChainEnd) :
    Option (Nat × Nat) → Nat → List Nat → List Ole2Fragment × ChainEnd
  | none, _, [] => ([], ending)
  | some (first, previous), size, [] =>
      if ending = .finished then ([kind.fragment name first previous size], ending)
      else ([], ending)
  | none, size, block :: blocks =>
      kind.fragments name ending (some (block, block)) (size + kind.size) blocks
  | some (first, previous), size, block :: blocks =>
      if block = previous + 1 then
        kind.fragments name ending (some (first, block)) (size + kind.size) blocks
      else
        let (rest, ending) := kind.fragments name ending (some (block, block)) kind.size blocks
        (kind.fragment name first previous size :: rest, ending)

namespace Ole2File

variable (self : Ole2File)

def sectorSize : Nat := 8 <<< self.bbShift
def ssSize : Nat := 8 <<< self.sbShift
def itemsPerBbfat : Nat := self.sectorSize / 32
def itemsPerSsfat : Nat := self.itemsPerBbfat
def headerSize : Nat := 64 + 68 * 8 + 109 * 32

def bbFat : List SectFat := readFat self.itemsPerBbfat 0 self.bbSectors
def ssFat : List SectFat := readFat self.itemsPerSsfat 0 self.ssSectors

/-- A block yields and is looked up again only where the table has it. -/
def getChain (start : Nat) (useSfat : Bool) : List Nat × ChainEnd :=
  let (fat, itemsPerFat, errPrefix) :=
    if useSfat then (self.ssFat, self.itemsPerSsfat, "SFAT chain")
    else (self.bbFat, self.itemsPerBbfat, "BFAT chain")
  chainLoop errPrefix (fatEntry fat itemsPerFat) (fat.length * itemsPerFat + 1) [] start start

def bigBlocks : BlockKind where
  adjective := "Big"
  size := self.sectorSize
  seek := fun block => headerSize + block * self.sectorSize

def smallBlocks : BlockKind where
  adjective := "Small"
  size := self.ssSize
  seek := fun block => block * self.ssSize

/-- OLE2_File.parseProperty -/
def parseProperty (property : Ole2Property) (namePrefix : String) :
    List Ole2Fragment × ChainEnd :=
  if property.size = 0 then ([], .finished)
  else if property.size < self.threshold ∧ namePrefix ≠ "root" then ([], .finished)
  else
    let (blocks, ending) := self.getChain property.start false
    self.bigBlocks.fragments (namePrefix ++ "[]") ending none 0 blocks

/-- RootEntry.parseProperty, which gives the table itself for the flag `use_sfat`. -/
def parseSmallProperty (property : Ole2Property) (namePrefix : String) :
    List Ole2Fragment × ChainEnd :=
  if property.size = 0 then ([], .finished)
  else if self.threshold ≤ property.size then ([], .finished)
  else
    let (blocks, ending) := self.getChain property.start (!self.ssFat.isEmpty)
    self.smallBlocks.fragments (namePrefix ++ "[]") ending none 0 blocks

/-! What it means to follow a chain. -/

/-- The entries of a table, one after the other. -/
def bbEntry (block : Nat) : Option Nat := self.bbSectors.flatten[block]?
def ssEntry (block : Nat) : Option Nat := self.ssSectors.flatten[block]?

end Ole2File

/-- The blocks lead from a reference to another one. -/
inductive Leads (entry : Nat → Option Nat) : Option Nat → List Nat → Option Nat → Prop
  | here (reference : Option Nat) : Leads entry reference [] reference
  | step {block : Nat} {blocks : List Nat} {reference : Option Nat}
      (leads : Leads entry (entry block) blocks reference) :
      Leads entry (some block) (block :: blocks) reference

/-- The reference ends a chain. -/
def Ends (reference : Option Nat) : Prop :=
  reference = none ∨ reference = some Sect.endOfChain

instance : DecidablePred Ends :=
  fun _ => inferInstanceAs (Decidable (_ ∨ _))

/-- The reference is a special index, or a block met before. -/
def Faulty (blocks : List Nat) (reference : Option Nat) : Prop :=
  ∃ block, reference = some block ∧ block ≠ Sect.endOfChain ∧
    (block ∈ Sect.specials ∨ block ∈ blocks)

def BlockKind.ofRun (kind : BlockKind) (name : String) (run : Run) : Ole2Fragment :=
  kind.fragment name run.first (run.first + run.count - 1) (run.count * kind.size)

/-- The fragments are the maximal runs of the chain from a block, or the chain is faulty. -/
def ChainFollowed (entry : Nat → Option Nat) (kind : BlockKind) (name : String) (start : Nat)
    (outcome : List Ole2Fragment × ChainEnd) : Prop :=
  ∃ blocks reference, Leads entry (some start) blocks reference ∧ blocks.Nodup ∧
    (∀ block ∈ blocks, block ∉ Sect.specials) ∧
    (Ends reference ∧ outcome.2 = .finished ∧
        (∃ runs, RunsOf runs blocks ∧ outcome.1 = runs.map (kind.ofRun name)) ∨
      Faulty blocks reference ∧ ∃ error, outcome.2 = .parserError error)

namespace Ole2File

variable (self : Ole2File)

/-- Big properties are followed in the big table and small ones in the small table. -/
structure Exact (file : Ole2File) (property : Ole2Property) (namePrefix : String) : Prop where
  big : property.size ≠ 0 → file.threshold ≤ property.size ∨ namePrefix = "root" →
    ChainFollowed file.bbEntry file.bigBlocks (namePrefix ++ "[]") property.start
      (file.parseProperty property namePrefix)
  notBig : property.size = 0 ∨ property.size < file.threshold ∧ namePrefix ≠ "root" →
    file.parseProperty property namePrefix = ([], .finished)
  small : property.size ≠ 0 → property.size < file.threshold →
    ChainFollowed file.ssEntry file.smallBlocks (namePrefix ++ "[]") property.start
      (file.parseSmallProperty property namePrefix)
  notSmall : property.size = 0 ∨ file.threshold ≤ property.size →
    file.parseSmallProperty property namePrefix = ([], .finished)

/-- The small table has a sector, or the big one says as little of the property's first block. -/
def Separate (property : Ole2Property) : Prop :=
  property.size = 0 ∨ self.threshold ≤ property.size ∨ self.ssSectors ≠ [] ∨
    property.start ∈ Sect.specials ∨ Ends (self.bbEntry property.start)

instance : DecidablePred self.Separate :=
  fun _ => inferInstanceAs (Decidable (_ ∨ _))

end Ole2File

/-! The tables. -/

theorem readFat_get (count start index : Nat) (sectors : List (List Nat)) :
    (readFat count start sectors)[index]? =
      sectors[index]?.map fun values => ⟨start + index * count, values⟩ := by
  induction sectors generalizing start index with
  | nil => simp [readFat]
  | cons values sectors induction =>
      cases index with
      | zero => simp [readFat]
      | succ index =>
          rw [readFat, List.getElem?_cons_succ, List.getElem?_cons_succ, induction]
          congr 2
          funext values
          rw [Nat.succ_mul]
          congr 1
          omega

theorem flatten_get {count : Nat} (positive : 0 < count) {sectors : List (List Nat)}
    (full : ∀ sector ∈ sectors, sector.length = count) (block : Nat) :
    sectors.flatten[block]? =
      sectors[block / count]?.bind fun sector => sector[block % count]? := by
  induction sectors generalizing block with
  | nil => simp
  | cons sector sectors induction =>
      have length := full sector List.mem_cons_self
      rw [List.flatten_cons]
      by_cases first : block < count
      · rw [List.getElem?_append_left (by omega), Nat.div_eq_of_lt first, Nat.mod_eq_of_lt first]
        rfl
      · obtain ⟨more, rfl⟩ : ∃ more, block = more + count := ⟨block - count, by omega⟩
        rw [List.getElem?_append_right (by omega), length, Nat.add_sub_cancel,
          Nat.add_div_right _ positive, Nat.add_mod_right, List.getElem?_cons_succ]
        exact induction (fun other member => full other (List.mem_cons_of_mem _ member)) more

theorem length_flatten {count : Nat} {sectors : List (List Nat)}
    (full : ∀ sector ∈ sectors, sector.length = count) :
    sectors.flatten.length = sectors.length * count := by
  induction sectors with
  | nil => simp
  | cons sector sectors induction =>
      rw [List.flatten_cons, List.length_append, full sector List.mem_cons_self,
        induction fun other member => full other (List.mem_cons_of_mem _ member),
        List.length_cons, Nat.succ_mul, Nat.add_comm]

theorem fatEntry_readFat {count : Nat} (positive : 0 < count) {sectors : List (List Nat)}
    (full : ∀ sector ∈ sectors, sector.length = count) :
    fatEntry (readFat count 0 sectors) count = fun block => sectors.flatten[block]? := by
  funext block
  rw [flatten_get positive full, fatEntry, readFat_get]
  have start : block / count * count ≤ block := Nat.div_mul_le_self block count
  have place : block - block / count * count = block % count := by
    have parts := Nat.div_add_mod block count
    rw [Nat.mul_comm] at parts
    omega
  cases sectors[block / count]? with
  | none => rfl
  | some sector => simp [SectFat.field, start, place]

/-! The walk along a table. -/

theorem chainLoop_spec {entry : Nat → Option Nat} {total : Nat}
    (listed : ∀ block next, entry block = some next → block < total) (errPrefix : String)
    {fuel : Nat} {blockSet : List Nat} (distinct : blockSet.Nodup)
    (inside : ∀ block ∈ blockSet, block < total) (enough : total < blockSet.length + fuel)
    (previous block : Nat) :
    ∃ blocks ending reference,
      chainLoop errPrefix entry fuel blockSet previous block = (blocks, ending) ∧
      Leads entry (some block) blocks reference ∧ blocks.Nodup ∧
      (∀ block ∈ blocks, block ∉ blockSet ∧ block ∉ Sect.specials) ∧
      (Ends reference ∧ ending = .finished ∨
        (∃ block, reference = some block ∧ block ≠ Sect.endOfChain ∧
          (block ∈ Sect.specials ∨ block ∈ blockSet ∨ block ∈ blocks)) ∧
        ∃ error, ending = .parserError error) := by
  induction fuel generalizing blockSet previous block with
  | zero =>
      have fewer : blockSet.length ≤ total := by
        have within : blockSet ⊆ List.range total := fun block member =>
          List.mem_range.mpr (inside block member)
        simpa using (List.subperm_of_subset distinct within).length_le
      omega
  | succ fuel induction =>
      rw [chainLoop]
      split
      · rename_i ends
        exact ⟨[], _, some block, rfl, .here _, .nil, by simp, .inl ⟨.inr (by rw [ends]), rfl⟩⟩
      split
      · rename_i goesOn special
        exact ⟨[], _, some block, rfl, .here _, .nil, by simp,
          .inr ⟨⟨block, rfl, goesOn, .inl special⟩, _, rfl⟩⟩
      split
      · rename_i goesOn _ seen
        exact ⟨[], _, some block, rfl, .here _, .nil, by simp,
          .inr ⟨⟨block, rfl, goesOn, .inr (.inl seen)⟩, _, rfl⟩⟩
      · rename_i goesOn ordinary fresh
        cases found : entry block with
        | none =>
            refine ⟨[block], _, none, rfl, .step (by rw [found]; exact .here none), by simp,
              fun other member => ?_, .inl ⟨.inl rfl, rfl⟩⟩
            rw [List.mem_singleton.mp member]
            exact ⟨fresh, ordinary⟩
        | some next =>
            have insideToo : ∀ other ∈ block :: blockSet, other < total :=
              List.forall_mem_cons.mpr ⟨listed block next found, inside⟩
            obtain ⟨blocks, ending, reference, walked, leads, nodup, apart, ends⟩ :=
              induction (List.nodup_cons.mpr ⟨fresh, distinct⟩) insideToo
                (by rw [List.length_cons]; omega) block next
            refine ⟨block :: blocks, ending, reference, by simp only [walked],
              .step (by rw [found]; exact leads),
              List.nodup_cons.mpr ⟨fun again => ?_, nodup⟩, ?_, ?_⟩
            · exact (apart block again).1 List.mem_cons_self
            · refine List.forall_mem_cons.mpr ⟨⟨fresh, ordinary⟩, fun other member => ?_⟩
              exact ⟨fun seen => (apart other member).1 (List.mem_cons_of_mem _ seen),
                (apart other member).2⟩
            · refine ends.imp id (And.imp_left ?_)
              rintro ⟨last, same, goesOnToo, faulty⟩
              refine ⟨last, same, goesOnToo, faulty.imp_right ?_⟩
              simp only [List.mem_cons]
              tauto

/-! The runs of a chain. -/

namespace BlockKind

variable (kind : BlockKind) (name : String)

theorem fragments_ending (ending : ChainEnd) (run : Option (Nat × Nat)) (size : Nat)
    (blocks : List Nat) : (kind.fragments name ending run size blocks).2 = ending := by
  induction blocks generalizing run size with
  | nil =>
      cases run with
      | none => rfl
      | some run =>
          rw [fragments]
          split <;> rfl
  | cons block blocks induction =>
      cases run with
      | none => exact induction _ _
      | some run =>
          rw [fragments]
          split
          · exact induction _ _
          · exact induction _ _

theorem fragments_some {run : Run} (positive : 0 < run.count) (blocks : List Nat) :
    (kind.fragments name .finished (some (run.first, run.first + run.count - 1))
        (run.count * kind.size) blocks).1 =
      (grow run blocks).map (kind.ofRun name) := by
  induction blocks generalizing run with
  | nil => rfl
  | cons block blocks induction =>
      have next : run.first + run.count - 1 + 1 = run.first + run.count := by omega
      rw [fragments, grow, next]
      split
      · rename_i contiguous
        have longer := @induction ⟨run.first, run.count + 1⟩ (Nat.succ_pos _)
        rw [← longer, contiguous, Nat.succ_mul]
        rfl
      · have later := @induction ⟨block, 1⟩ Nat.one_pos
        rw [Nat.one_mul, Nat.add_sub_cancel] at later
        rw [List.map_cons, ← later]
        rfl

theorem fragments_none (blocks : List Nat) :
    kind.fragments name .finished none 0 blocks =
      ((runs blocks).map (kind.ofRun name), .finished) := by
  refine Prod.ext ?_ (kind.fragments_ending name .finished none 0 blocks)
  cases blocks with
  | nil => rfl
  | cons block blocks =>
      have started := @fragments_some kind name ⟨block, 1⟩ Nat.one_pos blocks
      rw [Nat.one_mul, Nat.add_sub_cancel] at started
      rw [runs, ← started, fragments, Nat.zero_add]

theorem sum_size (found : List Run) :
    ((found.map (kind.ofRun name)).map Ole2Fragment.size).sum =
      (found.map Run.count).sum * kind.size := by
  induction found with
  | nil => simp
  | cons run found induction =>
      rw [List.map_cons, List.map_cons, List.sum_cons, induction, List.map_cons, List.sum_cons,
        Nat.add_mul]
      rfl

end BlockKind

/-! The two parseProperty. -/

namespace Ole2File

variable {self : Ole2File}

theorem itemsPerBbfat_pos : 0 < self.itemsPerBbfat := by
  have valid := self.valid
  have power : 2 ^ 6 ≤ 2 ^ self.bbShift := Nat.pow_le_pow_right (by decide) valid
  rw [itemsPerBbfat, sectorSize, Nat.shiftLeft_eq]
  omega

theorem fatEntry_bbFat : fatEntry self.bbFat self.itemsPerBbfat = self.bbEntry :=
  fatEntry_readFat itemsPerBbfat_pos self.bbFull

theorem fatEntry_ssFat : fatEntry self.ssFat self.itemsPerSsfat = self.ssEntry :=
  fatEntry_readFat itemsPerBbfat_pos self.ssFull

theorem length_readFat (count start : Nat) (sectors : List (List Nat)) :
    (readFat count start sectors).length = sectors.length := by
  induction sectors generalizing start with
  | nil => rfl
  | cons values sectors induction => rw [readFat, List.length_cons, List.length_cons, induction]

/-- The table that a flag selects. -/
def entryOf (self : Ole2File) (useSfat : Bool) : Nat → Option Nat :=
  if useSfat then self.ssEntry else self.bbEntry

theorem getChain_spec (start : Nat) (useSfat : Bool) :
    ∃ blocks ending reference, self.getChain start useSfat = (blocks, ending) ∧
      Leads (self.entryOf useSfat) (some start) blocks reference ∧ blocks.Nodup ∧
      (∀ block ∈ blocks, block ∉ Sect.specials) ∧
      (Ends reference ∧ ending = .finished ∨
        Faulty blocks reference ∧ ∃ error, ending = .parserError error) := by
  have listed : ∀ (sectors : List (List Nat)),
      (∀ sector ∈ sectors, sector.length = self.itemsPerBbfat) →
      ∀ block next, sectors.flatten[block]? = some next →
        block < sectors.length * self.itemsPerBbfat := by
    intro sectors full block next found
    have bound := (List.getElem?_eq_some_iff.mp found).1
    rwa [length_flatten full] at bound
  have walked : ∀ {entry : Nat → Option Nat} {total : Nat},
      (∀ block next, entry block = some next → block < total) → ∀ errPrefix : String,
      ∃ blocks ending reference,
        chainLoop errPrefix entry (total + 1) [] start start = (blocks, ending) ∧
        Leads entry (some start) blocks reference ∧ blocks.Nodup ∧
        (∀ block ∈ blocks, block ∉ Sect.specials) ∧
        (Ends reference ∧ ending = .finished ∨
          Faulty blocks reference ∧ ∃ error, ending = .parserError error) := by
    intro entry total within errPrefix
    obtain ⟨blocks, ending, reference, walked, leads, nodup, apart, ends⟩ :=
      @chainLoop_spec entry total within errPrefix (total + 1) [] List.nodup_nil (by simp)
        (by simp) start start
    refine ⟨blocks, ending, reference, walked, leads, nodup,
      fun block member => (apart block member).2, ends.imp id (And.imp_left ?_)⟩
    rintro ⟨block, same, goesOn, faulty⟩
    exact ⟨block, same, goesOn, faulty.imp_right fun either => either.resolve_left (by simp)⟩
  cases useSfat with
  | true =>
      have length : self.ssFat.length = self.ssSectors.length := length_readFat _ _ _
      have chain := walked (listed self.ssSectors self.ssFull) "SFAT chain"
      simp only [getChain, if_true, entryOf, fatEntry_ssFat, length]
      exact chain
  | false =>
      have length : self.bbFat.length = self.bbSectors.length := length_readFat _ _ _
      have chain := walked (listed self.bbSectors self.bbFull) "BFAT chain"
      simp only [getChain, Bool.false_eq_true, if_false, entryOf, fatEntry_bbFat, length]
      exact chain

theorem fragments_followed (kind : BlockKind) (name : String) (start : Nat) (useSfat : Bool) :
    ChainFollowed (self.entryOf useSfat) kind name start
      (kind.fragments name (self.getChain start useSfat).2 none 0
        (self.getChain start useSfat).1) := by
  obtain ⟨blocks, ending, reference, walked, leads, nodup, ordinary, ends⟩ :=
    self.getChain_spec start useSfat
  refine ⟨blocks, reference, leads, nodup, ordinary, ?_⟩
  rw [walked]
  refine ends.imp ?_ (And.imp_right ?_)
  · rintro ⟨last, rfl⟩
    rw [kind.fragments_none]
    exact ⟨last, rfl, runs blocks, runs_runsOf blocks, rfl⟩
  · rintro ⟨error, rfl⟩
    exact ⟨error, kind.fragments_ending _ _ _ _ _⟩

theorem parseProperty_big (property : Ole2Property) (namePrefix : String)
    (nonempty : property.size ≠ 0)
    (big : self.threshold ≤ property.size ∨ namePrefix = "root") :
    ChainFollowed self.bbEntry self.bigBlocks (namePrefix ++ "[]") property.start
      (self.parseProperty property namePrefix) := by
  have notSmall : ¬ (property.size < self.threshold ∧ namePrefix ≠ "root") := fun both =>
    big.elim (fun enough => absurd both.1 (Nat.not_lt.mpr enough)) both.2
  rw [parseProperty, if_neg nonempty, if_neg notSmall]
  exact self.fragments_followed self.bigBlocks _ property.start false

theorem ssFat_isEmpty : self.ssFat.isEmpty = self.ssSectors.isEmpty := by
  rw [ssFat]
  cases self.ssSectors <;> rfl

theorem parseSmallProperty_eq {property : Ole2Property} (nonempty : property.size ≠ 0)
    (small : property.size < self.threshold) (namePrefix : String) :
    ChainFollowed (self.entryOf (!self.ssSectors.isEmpty)) self.smallBlocks
      (namePrefix ++ "[]") property.start (self.parseSmallProperty property namePrefix) := by
  rw [parseSmallProperty, if_neg nonempty, if_neg (Nat.not_le.mpr small), ssFat_isEmpty]
  exact self.fragments_followed self.smallBlocks _ property.start _

end Ole2File

section Unlisted

variable {entry : Nat → Option Nat} {kind : BlockKind} {name : String} {start : Nat}
  {outcome : List Ole2Fragment × ChainEnd}

theorem Leads.inv {first reference : Option Nat} {blocks : List Nat}
    (leads : Leads entry first blocks reference) :
    blocks = [] ∧ first = reference ∨
      ∃ block rest, first = some block ∧ blocks = block :: rest ∧
        Leads entry (entry block) rest reference := by
  cases leads with
  | here => exact .inl ⟨rfl, rfl⟩
  | step leads => exact .inr ⟨_, _, rfl, rfl, leads⟩

theorem Leads.ordinary_cons {blocks : List Nat} {reference : Option Nat}
    (leads : Leads entry (some start) blocks reference) (ordinary : start ∉ Sect.specials)
    (ends : Ends reference ∨ Faulty blocks reference) :
    ∃ rest, blocks = start :: rest ∧ Leads entry (entry start) rest reference := by
  rcases leads.inv with ⟨rfl, rfl⟩ | ⟨block, rest, same, rfl, onward⟩
  · exfalso
    rcases ends with (none | last) | ⟨block, same, -, special | seen⟩
    · cases none
    · cases last
      exact ordinary (by decide)
    · cases same
      exact ordinary special
    · exact absurd seen List.not_mem_nil
  · cases same
    exact ⟨rest, rfl, onward⟩

/-- Where the table says nothing of the first block, this block is the chain. -/
theorem Leads.single {blocks : List Nat} {reference : Option Nat}
    (leads : Leads entry (some start) blocks reference) (ordinary : start ∉ Sect.specials)
    (apart : ∀ block ∈ blocks, block ∉ Sect.specials) (stops : Ends (entry start))
    (ends : Ends reference ∨ Faulty blocks reference) :
    blocks = [start] ∧ reference = entry start := by
  obtain ⟨rest, rfl, onward⟩ := leads.ordinary_cons ordinary ends
  rcases onward.inv with ⟨rfl, same⟩ | ⟨block, rest, same, rfl, -⟩
  · exact ⟨rfl, same.symm⟩
  · exfalso
    rw [same] at stops
    rcases stops with none | last
    · cases none
    · cases last
      exact apart Sect.endOfChain (by simp) (by decide)

theorem Ends.not_faulty {reference : Option Nat} (ends : Ends reference) (blocks : List Nat) :
    ¬ Faulty blocks reference := by
  rintro ⟨block, rfl, goesOn, -⟩
  rcases ends with none | last
  · cases none
  · exact goesOn (Option.some.inj last)

theorem followed_single (stops : Ends (entry start)) (ordinary : start ∉ Sect.specials)
    (followed : ChainFollowed entry kind name start outcome) :
    outcome.2 = .finished ∧ (outcome.1.map Ole2Fragment.size).sum = kind.size := by
  obtain ⟨blocks, reference, leads, nodup, apart, ends⟩ := followed
  obtain ⟨rfl, rfl⟩ := leads.single ordinary apart stops (ends.imp And.left And.left)
  obtain ⟨-, finished, found, runsOf, given⟩ :=
    ends.resolve_right fun faulty => stops.not_faulty _ faulty.1
  refine ⟨finished, ?_⟩
  rw [given, kind.sum_size, runsOf.sum_count, List.length_singleton, Nat.one_mul]

/-- A walk that meets at once a special index, or goes no further than the first block. -/
theorem ChainFollowed.congr {other : Nat → Option Nat}
    (followed : ChainFollowed entry kind name start outcome)
    (same : start ∈ Sect.specials ∨ Ends (entry start) ∧ Ends (other start)) :
    ChainFollowed other kind name start outcome := by
  obtain ⟨blocks, reference, leads, nodup, apart, ends⟩ := followed
  by_cases ordinary : start ∈ Sect.specials
  · rcases leads.inv with ⟨rfl, rfl⟩ | ⟨block, rest, here, rfl, -⟩
    · exact ⟨[], _, .here _, nodup, apart, ends⟩
    · cases here
      exact absurd ordinary (apart start List.mem_cons_self)
  · obtain ⟨stops, stopsToo⟩ := same.resolve_left ordinary
    obtain ⟨rfl, rfl⟩ := leads.single ordinary apart stops (ends.imp And.left And.left)
    refine ⟨[start], other start, .step (.here _), nodup, apart, .inl ⟨stopsToo, ?_⟩⟩
    exact (ends.resolve_right fun faulty => stops.not_faulty _ faulty.1).2

theorem followed_of_single (ordinary : start ∉ Sect.specials) (sized : 0 < kind.size)
    (finished : outcome.2 = .finished)
    (size : (outcome.1.map Ole2Fragment.size).sum = kind.size)
    (followed : ChainFollowed entry kind name start outcome) : Ends (entry start) := by
  obtain ⟨blocks, reference, leads, nodup, apart, ends⟩ := followed
  rcases ends with ⟨ends, -, found, runsOf, given⟩ | ⟨-, error, failed⟩
  · obtain ⟨rest, rfl, onward⟩ := leads.ordinary_cons ordinary (.inl ends)
    rw [given, kind.sum_size, runsOf.sum_count, List.length_cons, Nat.succ_mul] at size
    have none : rest.length * kind.size = 0 := by omega
    have last : rest = [] :=
      List.length_eq_zero_iff.mp ((Nat.mul_eq_zero.mp none).resolve_right (by omega))
    subst last
    rcases onward.inv with ⟨-, same⟩ | ⟨block, rest, -, absent, -⟩
    · rwa [same]
    · cases absent
  · rw [finished] at failed
    cases failed

end Unlisted

namespace Ole2File

variable {self : Ole2File} {property : Ole2Property} {namePrefix : String}

theorem ssSize_pos : 0 < self.smallBlocks.size := by
  have power := Nat.two_pow_pos self.sbShift
  rw [smallBlocks, ssSize, Nat.shiftLeft_eq]
  exact Nat.mul_pos (by decide) power

theorem entryOf_empty (empty : self.ssSectors = []) :
    self.entryOf (!self.ssSectors.isEmpty) = self.bbEntry := by
  rw [empty]
  rfl

theorem Exact.separate (holds : self.Exact property namePrefix) : self.Separate property := by
  by_contra unlucky
  simp only [Separate, not_or] at unlucky
  obtain ⟨nonempty, small, listed, ordinary, further⟩ := unlucky
  have below := Nat.not_le.mp small
  have empty : self.ssSectors = [] := not_not.mp listed
  have stops : Ends (self.ssEntry property.start) := .inl (by simp [ssEntry, empty])
  obtain ⟨finished, size⟩ := followed_single stops ordinary (holds.small nonempty below)
  have walked := parseSmallProperty_eq nonempty below namePrefix
  rw [entryOf_empty empty] at walked
  exact further (followed_of_single ordinary ssSize_pos finished size walked)

/-- The chains are followed exactly if the flag selects the right table, or either will do. -/
theorem parseProperty_exact_iff (self : Ole2File) (property : Ole2Property)
    (namePrefix : String) :
    self.Exact property namePrefix ↔ self.Separate property := by
  refine ⟨fun holds => holds.separate, fun separate => ⟨?_, fun other => ?_, ?_, fun other => ?_⟩⟩
  · exact parseProperty_big property namePrefix
  · rw [parseProperty]
    by_cases empty : property.size = 0
    · rw [if_pos empty]
    · rw [if_neg empty, if_pos (other.resolve_left empty)]
  · intro nonempty small
    have followed := parseSmallProperty_eq nonempty small namePrefix
    by_cases listed : self.ssSectors = []
    · rw [entryOf_empty listed] at followed
      have stops : Ends (self.ssEntry property.start) := .inl (by simp [ssEntry, listed])
      have same : property.start ∈ Sect.specials ∨ Ends (self.bbEntry property.start) :=
        ((separate.resolve_left nonempty).resolve_left (Nat.not_le.mpr small)).resolve_left
          (not_not_intro listed)
      exact followed.congr (same.imp_right fun ends => ⟨ends, stops⟩)
    · rw [List.isEmpty_eq_false_iff.mpr listed] at followed
      exact followed
  · rw [parseSmallProperty]
    by_cases empty : property.size = 0
    · rw [if_pos empty]
    · rw [if_neg empty, if_pos (other.resolve_left empty)]

/-- A file without small table, and a big table that leads from the block 0 to the block 1. -/
def smallTableMissing : Ole2File where
  bbShift := 6
  sbShift := 6
  threshold := 4096
  bbSectors := [[1, Sect.endOfChain, Sect.unused, Sect.unused, Sect.unused, Sect.unused,
    Sect.unused, Sect.unused, Sect.unused, Sect.unused, Sect.unused, Sect.unused,
    Sect.unused, Sect.unused, Sect.unused, Sect.unused]]
  ssSectors := []
  valid := by decide
  bbFull := by decide
  ssFull := by decide

theorem parseProperty_not_exact :
    ¬ ∀ (self : Ole2File) (property : Ole2Property) (namePrefix : String),
      self.Exact property namePrefix := by
  intro all
  have separate := (all smallTableMissing ⟨0, 100⟩ "summary").separate
  exact absurd separate (by decide)

end Ole2File

end Segvault.Hachoir
