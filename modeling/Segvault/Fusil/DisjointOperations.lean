import Segvault.Footprint
import Segvault.Fusil.LegalOffsets
import Segvault.Fusil.VersionTree

namespace Segvault.Fusil

/-! Operations that stay inside of the data. -/

namespace Operation

/-- The operation ends inside of data of that length; all but one bit is on whole bytes. -/
structure Fits (operation : Operation) (datalen : Nat) : Prop where
  nonempty : 0 < operation.size
  aligned : operation.size ≠ 1 → operation.offset % 8 = 0
  inside : operation.offset + operation.size ≤ 8 * datalen

def inverted (bit : Nat) (byte : UInt8) : UInt8 :=
  let mask : UInt8 := 1 <<< UInt8.ofNat bit
  if byte &&& mask ≠ 0 then byte &&& (~~~mask) else byte ||| mask

/-- What the operation does to data that it fits in. -/
def apply : Operation → List UInt8 → List UInt8
  | inverseBit offset => fun data => data.modify (offset / 8) (inverted (offset % 8))
  | replaceByte offset byte => fun data => data.modify (offset / 8) fun _ => byte
  | specialValue offset bytes => fun data =>
      data.take (offset / 8) ++ bytes ++ data.drop (offset / 8 + bytes.length)
  | increment offset incr => fun data => data.modify (offset / 8) fun byte =>
      UInt8.ofNat (minmax 0 (byte.toNat + incr) 255).toNat

theorem modifyByte_inside {data : List UInt8} {index : Nat} (inside : index < data.length)
    (change : UInt8 → UInt8) :
    modifyByte data index change = .ok (data.modify index change) := by
  rw [modifyByte, List.getElem?_eq_getElem inside, List.modify_eq_set, List.getElem?_eq_getElem inside]
  rfl

theorem call_eq {operation : Operation} {data : List UInt8} (fits : operation.Fits data.length) :
    operation.call data = .ok (operation.apply data) := by
  have inside := fits.inside
  cases operation with
  | inverseBit offset =>
      simp only [Operation.offset, Operation.size] at inside
      exact modifyByte_inside (by omega) _
  | replaceByte offset byte =>
      simp only [Operation.offset, Operation.size] at inside
      exact modifyByte_inside (by omega) _
  | specialValue offset bytes => rfl
  | increment offset incr =>
      simp only [Operation.offset, Operation.size] at inside
      exact modifyByte_inside (by omega) _

/-- The bytes of the bits that an operation touches. -/
theorem footprint {operation : Operation} {datalen : Nat} (fits : operation.Fits datalen) :
    Footprint datalen (operation.offset / 8) ((operation.offset + operation.size + 7) / 8)
      operation.apply := by
  have inside := fits.inside
  have aligned := fits.aligned
  cases operation with
  | inverseBit offset =>
      simp only [Operation.offset, Operation.size]
      rw [show (offset + 1 + 7) / 8 = offset / 8 + 1 by omega]
      exact .modify _ _
  | replaceByte offset byte =>
      simp only [Operation.offset, Operation.size] at aligned ⊢
      rw [show (offset + 8 + 7) / 8 = offset / 8 + 1 by omega]
      exact .modify _ _
  | specialValue offset bytes =>
      simp only [Operation.offset, Operation.size] at aligned inside ⊢
      rw [show (offset + bytes.length * 8 + 7) / 8 = offset / 8 + bytes.length by omega]
      exact .splice _ (by omega)
  | increment offset incr =>
      simp only [Operation.offset, Operation.size] at aligned ⊢
      rw [show (offset + 8 + 7) / 8 = offset / 8 + 1 by omega]
      exact .modify _ _

theorem inverted_eq_xor : ∀ (bit : Fin 8) (code : Fin 256),
    inverted bit (UInt8.ofNat code) = UInt8.ofNat code ^^^ (1 <<< UInt8.ofNat bit) := by
  decide +kernel

theorem inverted_comm {first second : Nat} (low : first < 8) (short : second < 8) (byte : UInt8) :
    inverted first (inverted second byte) = inverted second (inverted first byte) := by
  have flips : ∀ bit, bit < 8 → ∀ byte, inverted bit byte = byte ^^^ (1 <<< UInt8.ofNat bit) := by
    intro bit low byte
    have same := inverted_eq_xor ⟨bit, low⟩ ⟨byte.toNat, byte.toNat_lt⟩
    rwa [UInt8.ofNat_toNat] at same
  rw [flips first low, flips second short, flips second short, flips first low,
    UInt8.xor_assoc, UInt8.xor_comm (1 <<< UInt8.ofNat second), UInt8.xor_assoc]

theorem size_whole (operation : Operation) :
    operation.size = 1 ∧ (∃ offset, operation = inverseBit offset) ∨
      operation.size ≠ 1 ∧ operation.size % 8 = 0 := by
  cases operation with
  | inverseBit offset => exact .inl ⟨rfl, offset, rfl⟩
  | replaceByte offset byte => exact .inr ⟨(by decide : 8 ≠ 1), Nat.mod_self 8⟩
  | specialValue offset bytes =>
      exact .inr ⟨by rw [size]; omega, Nat.mul_mod_left _ _⟩
  | increment offset incr => exact .inr ⟨(by decide : 8 ≠ 1), Nat.mod_self 8⟩

theorem bits_disjoint {operation other : Operation} (apart : Disjoint operation.bits other.bits) :
    operation.size = 0 ∨ other.size = 0 ∨ operation.offset + operation.size ≤ other.offset ∨
      other.offset + other.size ≤ operation.offset := by
  by_contra meet
  have inFirst : max operation.offset other.offset ∈ operation.bits :=
    Finset.mem_Ico.mpr (by omega)
  have inOther : max operation.offset other.offset ∈ other.bits :=
    Finset.mem_Ico.mpr (by omega)
  exact Finset.disjoint_left.mp apart inFirst inOther

theorem apply_comm {operation other : Operation} {datalen : Nat} (fits : operation.Fits datalen)
    (otherFits : other.Fits datalen) (apart : Disjoint operation.bits other.bits)
    {data : List UInt8} (long : data.length = datalen) :
    operation.apply (other.apply data) = other.apply (operation.apply data) := by
  have nonempty := fits.nonempty
  have otherNonempty := otherFits.nonempty
  have order := bits_disjoint apart
  have aligned := fits.aligned
  have otherAligned := otherFits.aligned
  rcases operation.size_whole with ⟨one, offset, rfl⟩ | ⟨many, whole⟩
  · rcases other.size_whole with ⟨otherOne, otherOffset, rfl⟩ | ⟨many, whole⟩
    · by_cases sameByte : offset / 8 = otherOffset / 8
      -- Two bits of one byte.
      · simp only [apply, sameByte, List.modify_modify_eq]
        refine congrArg (data.modify _) (funext fun byte => ?_)
        exact inverted_comm (Nat.mod_lt _ (by decide)) (Nat.mod_lt _ (by decide)) byte
      · simp only [Operation.offset, Operation.size] at order
        exact (footprint fits).comm (footprint otherFits)
          (by simp only [Operation.offset, Operation.size]; omega) long
    · have start := otherAligned many
      exact (footprint fits).comm (footprint otherFits) (by omega) long
  · have start := aligned many
    rcases other.size_whole with ⟨otherOne, -⟩ | ⟨otherMany, otherWhole⟩
    · exact (footprint fits).comm (footprint otherFits) (by omega) long
    · have otherStart := otherAligned otherMany
      exact (footprint fits).comm (footprint otherFits) (by omega) long

end Operation

/-! The operations that are created, and those that a version accepts. -/

theorem createByteOffset_bounds {agent : Agent} {datalen offset : Int} {draws rest : Draws}
    (drawn : createByteOffset agent datalen draws = (.ok offset, rest)) :
    0 ≤ offset ∧ offset < datalen := by
  rw [createByteOffset_eq] at drawn
  have first := first_nonneg agent
  obtain ⟨above, below⟩ := randint_bounds drawn
  have last := ((le_last agent datalen offset).mp below).1
  omega

theorem createBitOffset_bounds {agent : Agent} {datalen offset : Int} {draws rest : Draws}
    (drawn : createBitOffset agent datalen draws = (.ok offset, rest)) :
    0 ≤ offset ∧ offset < datalen * 8 := by
  rw [createBitOffset_eq] at drawn
  have first := first_nonneg agent
  obtain ⟨above, below⟩ := randint_bounds drawn
  have last := ((le_last agent datalen _).mp (Int.le_refl _)).1
  omega

theorem OperationClass.create_fits {cls : OperationClass} {agent : Agent} {datalen : Nat}
    {draws rest : Draws} {operation : Operation}
    (created : cls.create agent datalen draws = (.ok operation, rest)) :
    operation.Fits datalen := by
  cases cls with
  | inverseBit =>
      simp only [create] at created
      split at created
      · cases created
      · next offset _ drawn =>
          cases created
          have bounds := createBitOffset_bounds drawn
          exact ⟨Nat.one_pos, fun many => absurd rfl many,
            by simp only [Operation.offset, Operation.size]; omega⟩
  | replaceByte =>
      simp only [create] at created
      split at created
      · cases created
      · next offset _ drawn =>
          split at created
          · cases created
          · cases created
            have bounds := createByteOffset_bounds drawn
            exact ⟨Nat.succ_pos 7, fun _ => Nat.mul_mod_left _ _,
              by simp only [Operation.offset, Operation.size]; omega⟩
  | specialValue =>
      simp only [create] at created
      split at created
      · cases created
      · next bytes _ chosen =>
          split at created
          · cases created
          · next offset _ drawn =>
              cases created
              have bounds := createByteOffset_bounds drawn
              have nonempty := specialValues_nonempty bytes (choice_mem chosen)
              exact ⟨by simp only [Operation.size]; omega, fun _ => Nat.mul_mod_left _ _,
                by simp only [Operation.offset, Operation.size]; omega⟩
  | increment =>
      simp only [create] at created
      split at created
      · cases created
      · split at created
        · cases created
        · split at created
          · cases created
          · next offset _ drawn =>
              cases created
              have bounds := createByteOffset_bounds drawn
              exact ⟨Nat.succ_pos 7, fun _ => Nat.mul_mod_left _ _,
                by simp only [Operation.offset, Operation.size]; omega⟩

/-- Operations that have no bit in common, all of them among the dirty bits. -/
structure Spread (operations : List Operation) (dirtyBits : Finset Nat) : Prop where
  apart : operations.Pairwise fun operation other => Disjoint operation.bits other.bits
  dirty : ∀ operation ∈ operations, operation.bits ⊆ dirtyBits

theorem Spread.concat {operations : List Operation} {dirtyBits : Finset Nat}
    (spread : Spread operations dirtyBits) {operation : Operation}
    (clean : Disjoint operation.bits dirtyBits) :
    Spread (operations ++ [operation]) (dirtyBits ∪ operation.bits) where
  apart := by
    refine List.pairwise_append.mpr ⟨spread.apart, List.pairwise_singleton _ _, ?_⟩
    intro earlier member other single
    rw [List.mem_singleton.mp single]
    exact (clean.mono_right (spread.dirty earlier member)).symm
  dirty := by
    intro earlier member
    rcases List.mem_append.mp member with old | new
    · exact (spread.dirty earlier old).trans Finset.subset_union_left
    · rw [List.mem_singleton.mp new]
      exact Finset.subset_union_right

namespace DataVersion

theorem createOperation_spec {agent : Agent} {datalen : Nat} {dirtyBits : Finset Nat}
    {draws rest : Draws} {operation : Operation}
    (created : createOperation agent datalen dirtyBits draws = (.ok (some operation), rest)) :
    operation.Fits datalen ∧ Disjoint operation.bits dirtyBits := by
  simp only [createOperation] at created
  split at created
  · cases created
  · split at created
    · cases created
    · next made =>
        split at created
        · cases created
        · next clean =>
            cases created
            exact ⟨OperationClass.create_fits made,
              Finset.disjoint_iff_inter_eq_empty.mpr (Finset.not_nonempty_iff_eq_empty.mp clean)⟩

theorem nextOperation_spec {agent : Agent} {datalen tries : Nat} {dirtyBits : Finset Nat}
    {draws rest : Draws} {operation : Operation}
    (created : nextOperation agent datalen dirtyBits tries draws = (.ok operation, rest)) :
    operation.Fits datalen ∧ Disjoint operation.bits dirtyBits := by
  induction tries generalizing draws with
  | zero => cases created
  | succ tries induction =>
      simp only [nextOperation] at created
      split at created
      · cases created
      · exact induction created
      · next made =>
          cases created
          exact createOperation_spec made

theorem addOperations_spread {agent : Agent} {datalen missing : Nat}
    {operations result : List Operation} {dirtyBits dirty : Finset Nat} {draws rest : Draws}
    (spread : Spread operations dirtyBits)
    (added : addOperations agent datalen missing operations dirtyBits draws =
      (.ok (result, dirty), rest)) :
    Spread result dirty ∧
      ∀ operation ∈ result, operation ∈ operations ∨ operation.Fits datalen := by
  induction missing generalizing operations dirtyBits draws with
  | zero =>
      cases added
      exact ⟨spread, fun operation member => .inl member⟩
  | succ missing induction =>
      simp only [addOperations] at added
      split at added
      · cases added
      · next operation _ found =>
          obtain ⟨fits, clean⟩ := nextOperation_spec found
          obtain ⟨wider, known⟩ := induction (spread.concat clean) added
          refine ⟨wider, fun other member => ?_⟩
          rcases known other member with earlier | other
          · rcases List.mem_append.mp earlier with old | new
            · exact .inl old
            · exact .inr (List.mem_singleton.mp new ▸ fits)
          · exact .inr other

theorem createVersion_spread {previous version : DataVersion} {number : Nat} {agent : Agent}
    {datalen : Nat} {draws rest : Draws}
    (spread : Spread previous.operations previous.dirtyBits)
    (created : previous.createVersion number agent datalen draws = (.ok version, rest)) :
    Spread version.operations version.dirtyBits ∧ ∀ operation ∈ version.operations,
      operation ∈ previous.operations ∨ operation.Fits datalen := by
  simp only [createVersion] at created
  split at created
  · cases created
  · split at created
    · cases created
    · next added =>
        cases created
        exact addOperations_spread spread added

end DataVersion

/-! The versions of a history. -/

/-- The operations of every version are spread, and have a property of their own. -/
def Kept (room : Operation → Prop) (versions : DataVersions) : Prop :=
  ∀ version ∈ versions, Spread version.operations version.dirtyBits ∧
    ∀ operation ∈ version.operations, room operation

/-- Every version has the operations of an older one. -/
def Retains (versions result : DataVersions) : Prop :=
  ∀ version ∈ result, ∃ old ∈ versions,
    version.operations = old.operations ∧ version.dirtyBits = old.dirtyBits

namespace Retains

variable {versions result : DataVersions} {room : Operation → Prop}

theorem kept (retains : Retains versions result) (before : Kept room versions) :
    Kept room result := by
  intro version member
  obtain ⟨old, found, operations, dirtyBits⟩ := retains version member
  rw [operations, dirtyBits]
  exact before old found

theorem of_subset (fewer : ∀ version ∈ result, version ∈ versions) : Retains versions result :=
  fun version member => ⟨version, fewer version member, rfl, rfl⟩

theorem clearCache (versions : DataVersions) (old : Nat) :
    Retains versions ((versions.take old).map DataVersion.clearCache ++ versions.drop old) := by
  intro version member
  rcases List.mem_append.mp member with cleared | recent
  · obtain ⟨before, found, rfl⟩ := List.mem_map.mp cleared
    exact ⟨before, List.mem_of_mem_take found, before.clearCache_operations, by
      unfold DataVersion.clearCache
      split <;> rfl⟩
  · exact ⟨version, List.mem_of_mem_drop recent, rfl, rfl⟩

theorem createData (versions : DataVersions) (index : Nat) :
    Retains versions (createData versions index).2 := by
  unfold Fusil.createData
  split
  · exact .of_subset fun _ => id
  · next version found =>
      split
      · exact .of_subset fun _ => id
      · split
        · exact .of_subset fun _ => id
        · split
          · exact .of_subset fun _ => id
          · split
            · exact .of_subset fun _ => id
            · intro other member
              rcases List.mem_or_eq_of_mem_set member with kept | rfl
              · exact ⟨other, kept, rfl, rfl⟩
              · exact ⟨version, List.mem_of_getElem? found, rfl, rfl⟩

theorem revert (versions : DataVersions) (index : Nat) :
    Retains versions (IncrMangle.revert versions index) := by
  unfold IncrMangle.revert
  split
  · exact .of_subset fun _ => id
  · split
    · exact .of_subset fun _ => id
    · exact .of_subset fun _ => List.mem_of_mem_eraseIdx

theorem rollbackLast {draws rest : Draws}
    (rolled : IncrMangle.rollbackLast versions draws = (.ok result, rest)) :
    Retains versions result := by
  unfold IncrMangle.rollbackLast at rolled
  split at rolled
  · cases rolled
  · split at rolled
    · cases rolled
    · cases rolled
      exact .of_subset fun _ => List.mem_of_mem_take

theorem checkPreviousVersion {self : IncrMangle} {agent : Agent} {version : DataVersion}
    {draws rest : Draws}
    (checked : self.checkPreviousVersion agent version draws = (.ok result, rest)) :
    Retains self.versions result := by
  unfold IncrMangle.checkPreviousVersion at checked
  split at checked
  · cases checked
    exact .of_subset fun _ => List.mem_of_mem_take
  · split at checked
    · cases checked
      exact .revert _ _
    · split at checked
      · cases checked
        exact .revert _ _
      · split at checked
        · exact .rollbackLast checked
        · cases checked
          exact .of_subset fun _ => id

end Retains

namespace IncrMangle

variable {room : Operation → Prop} {agent : Agent}

theorem currentVersions_kept {self : IncrMangle} {data : List UInt8} {result : DataVersions}
    {draws rest : Draws} (before : Kept room self.versions)
    (current : self.currentVersions agent data draws = (.ok result, rest)) :
    Kept room result := by
  unfold currentVersions at current
  split at current
  · exact (Retains.checkPreviousVersion current).kept before
  · cases current
    refine (Retains.clearCache _ _).kept fun version member => ?_
    rcases List.mem_append.mp member with old | new
    · exact before version old
    · rw [List.mem_singleton.mp new]
      exact ⟨⟨.nil, fun _ => nofun⟩, fun _ => nofun⟩

theorem newVersion_kept {versions result : DataVersions} {datalen : Nat} {draws rest : Draws}
    (roomy : ∀ operation : Operation, operation.Fits datalen → room operation)
    (before : Kept room versions)
    (created : newVersion versions agent datalen draws = (.ok result, rest)) :
    Kept room result := by
  unfold newVersion at created
  split at created
  · cases created
  · next previous last =>
      have known := before previous (List.mem_of_getLast? last)
      split at created
      · next version _ made =>
          cases created
          obtain ⟨spread, drawn⟩ := DataVersion.createVersion_spread known.1 made
          refine (Retains.clearCache _ _).kept fun other member => ?_
          rcases List.mem_append.mp member with old | new
          · exact before other old
          · rw [List.mem_singleton.mp new]
            exact ⟨spread, fun operation member =>
              (drawn operation member).elim (known.2 operation) (roomy operation)⟩
      · exact (Retains.rollbackLast created).kept before
      · cases created

theorem mangleData_kept {self : IncrMangle} {data : List UInt8} {draws : Draws}
    (roomy : ∀ operation : Operation, operation.Fits data.length → room operation)
    (before : Kept room self.versions) :
    Kept room (self.mangleData agent data draws).2.versions := by
  unfold mangleData
  split
  · exact before
  · next current =>
      have known := currentVersions_kept before current
      split
      · exact known
      · next created =>
          exact (Retains.createData _ _).kept (newVersion_kept roomy known created)

/-- What every session that is in a history asks of the operations it can create. -/
theorem history_kept {events : List SessionEvent}
    (roomy : ∀ content draws data, .start content draws ∈ events →
      readData agent content = .ok data →
      ∀ operation : Operation, operation.Fits data.length → room operation) :
    Kept room (history agent events).versions := by
  have steps : ∀ (events : List SessionEvent) (self : IncrMangle),
      (∀ content draws data, .start content draws ∈ events → readData agent content = .ok data →
        ∀ operation : Operation, operation.Fits data.length → room operation) →
      Kept room self.versions → Kept room (Transition.run (step agent) self events).versions := by
    intro events
    induction events with
    | nil => exact fun self _ before => before
    | cons event events induction =>
        intro self roomy before
        refine induction _ (fun content draws data later =>
          roomy content draws data (List.mem_cons_of_mem _ later)) ?_
        cases event with
        | done score => rwa [step, onSessionDone_versions]
        | start content draws =>
            simp only [step, onSessionStart]
            split
            · exact before
            · next data read =>
                exact mangleData_kept (roomy content draws data List.mem_cons_self read) before
  refine steps events {} roomy ?_
  rintro version ⟨⟩

end IncrMangle

/-! Operations in another order. -/

def applyAll (operations : List Operation) (data : List UInt8) : List UInt8 :=
  operations.foldl (fun data operation => operation.apply data) data

theorem applyAll_length {operations : List Operation} {datalen : Nat}
    (fit : ∀ operation ∈ operations, operation.Fits datalen) {data : List UInt8}
    (long : data.length = datalen) :
    (applyAll operations data).length = datalen := by
  induction operations generalizing data with
  | nil => exact long
  | cons operation operations induction =>
      obtain ⟨fits, fit⟩ := List.forall_mem_cons.mp fit
      exact induction fit ((Operation.footprint fits).length_eq long)

theorem replay_eq {operations : List Operation} {data : List UInt8}
    (fit : ∀ operation ∈ operations, operation.Fits data.length) :
    replay operations data = .ok (applyAll operations data) := by
  induction operations generalizing data with
  | nil => rfl
  | cons operation operations induction =>
      obtain ⟨fits, fit⟩ := List.forall_mem_cons.mp fit
      have length := (Operation.footprint fits).length_eq rfl
      rw [replay, List.foldlM_cons, Operation.call_eq fits]
      exact induction (length ▸ fit)

theorem applyAll_perm {operations order : List Operation} {datalen : Nat}
    (perm : order.Perm operations) (fit : ∀ operation ∈ operations, operation.Fits datalen)
    (apart : ∀ operation ∈ operations, ∀ other ∈ operations, operation ≠ other →
      Disjoint operation.bits other.bits)
    {data : List UInt8} (long : data.length = datalen) :
    applyAll order data = applyAll operations data := by
  induction perm generalizing data with
  | nil => rfl
  | cons operation perm induction =>
      obtain ⟨fits, fit⟩ := List.forall_mem_cons.mp fit
      refine induction fit (fun first member second other => ?_)
        ((Operation.footprint fits).length_eq long)
      exact apart first (List.mem_cons_of_mem _ member) second (List.mem_cons_of_mem _ other)
  | swap first second rest =>
      have twice : first.apply (second.apply data) = second.apply (first.apply data) := by
        by_cases same : first = second
        · rw [same]
        · have firstIn : first ∈ first :: second :: rest := List.mem_cons_self
          have secondIn : second ∈ first :: second :: rest :=
            List.mem_cons_of_mem _ List.mem_cons_self
          exact Operation.apply_comm (fit first firstIn) (fit second secondIn)
            (apart first firstIn second secondIn same) long
      simp only [applyAll, List.foldl_cons, twice]
  | trans former latter firstInduction secondInduction =>
      refine (firstInduction (fun operation member => fit operation (latter.mem_iff.mp member))
        (fun operation member other otherIn => apart operation (latter.mem_iff.mp member) other
          (latter.mem_iff.mp otherIn)) long).trans ?_
      exact secondInduction fit apart long

/-- Operations that fit in the data and have no bit in common can be applied in any order. -/
theorem replay_perm {operations order : List Operation} {data : List UInt8}
    (perm : order.Perm operations) (fit : ∀ operation ∈ operations, operation.Fits data.length)
    (apart : operations.Pairwise fun operation other => Disjoint operation.bits other.bits) :
    replay order data = replay operations data := by
  have _ : Std.Symm fun operation other : Operation => Disjoint operation.bits other.bits :=
    ⟨fun _ _ disjoint => disjoint.symm⟩
  have distinct : ∀ operation ∈ operations, ∀ other ∈ operations, operation ≠ other →
      Disjoint operation.bits other.bits :=
    fun _ member _ otherIn differs => apart.forall member otherIn differs
  rw [replay_eq fit, replay_eq fun operation member => fit operation (perm.mem_iff.mp member),
    applyAll_perm perm fit distinct rfl]

namespace IncrMangle

/-- A session on a longer file appends two bytes to the data of the first file. -/
def longerFile : List SessionEvent :=
  [.start [1, 2] fun _ => 0, .done 0,
    .start (List.replicate 10 0) fun draw => [1, 0, 0, 5, 0, 2, 7].getD draw 0]

end IncrMangle

end Segvault.Fusil
