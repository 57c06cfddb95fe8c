import Segvault.Fusil.IncrMangle

namespace Segvault.Fusil

/-! The version list as a tree branch: what every history of sessions keeps. -/

structure VersionTree (versions : DataVersions) (original : List UInt8) :
    Prop where
  nonempty : original ≠ []
  root : ∃ version, versions[0]? = some version ∧
    version.cls = .originalVersion ∧ version.operations = [] ∧
    version.data = some original
  modified : ∀ {index : Nat} {version : DataVersion},
    versions[index + 1]? = some version → version.cls = .modifiedVersion
  number : ∀ {index : Nat} {version : DataVersion},
    versions[index]? = some version → version.version = index + 1
  extends_previous : ∀ {index : Nat} {previous version : DataVersion},
    versions[index]? = some previous → versions[index + 1]? = some version →
    ∃ added, added ≠ [] ∧ version.operations = previous.operations ++ added
  cache : ∀ {index : Nat} {version : DataVersion} {data : List UInt8},
    versions[index]? = some version → version.data = some data →
    replay version.operations original = .ok data

theorem replay_append (first second : List Operation) (data : List UInt8) :
    replay (first ++ second) data = replay first data >>= replay second := by
  simp only [replay, List.foldlM_append]
  rfl

theorem replay_drop {first second : List Operation}
    {original data : List UInt8} (isPrefix : first <+: second)
    (replayed : replay first original = .ok data) :
    replay (second.drop first.length) data = replay second original := by
  obtain ⟨added, rfl⟩ := isPrefix
  rw [replay_append, replayed, List.drop_left]
  rfl

namespace DataVersion

theorem cached?_eq_some {version : DataVersion} {data : List UInt8}
    (cached : version.cached? = some data) : version.data = some data := by
  unfold cached? at cached
  split at cached
  · cases cached
  · cases cached
  · next stored => rw [stored, ← Option.some.inj cached]

theorem cached?_of_data {version : DataVersion} {data : List UInt8}
    (stored : version.data = some data) (nonempty : data ≠ []) :
    version.cached? = some data := by
  cases data with
  | nil => exact absurd rfl nonempty
  | cons byte bytes => simp [cached?, stored]

@[simp] theorem clearCache_cls (version : DataVersion) :
    version.clearCache.cls = version.cls := by
  unfold clearCache
  split <;> rfl

@[simp] theorem clearCache_operations (version : DataVersion) :
    version.clearCache.operations = version.operations := by
  unfold clearCache
  split <;> rfl

@[simp] theorem clearCache_version (version : DataVersion) :
    version.clearCache.version = version.version := by
  unfold clearCache
  split <;> rfl

theorem clearCache_original {version : DataVersion}
    (original : version.cls = .originalVersion) :
    version.clearCache = version := by
  simp [clearCache, original]

theorem clearCache_data {version : DataVersion} {data : List UInt8}
    (stored : version.clearCache.data = some data) :
    version.data = some data := by
  unfold clearCache at stored
  split at stored
  · exact stored
  · cases stored

theorem addOperations_extends {agent : Agent} {datalen missing : Nat}
    {operations result : List Operation} {dirtyBits dirty : Finset Nat}
    {draws rest : Draws}
    (added : addOperations agent datalen missing operations dirtyBits draws =
      (.ok (result, dirty), rest)) :
    ∃ new, new.length = missing ∧ result = operations ++ new := by
  induction missing generalizing operations dirtyBits draws with
  | zero =>
      simp only [addOperations, Prod.mk.injEq, Except.ok.injEq] at added
      exact ⟨[], rfl, by simp [added.1.1]⟩
  | succ missing induction =>
      simp only [addOperations] at added
      split at added
      · cases added
      · next operation draws found =>
          obtain ⟨new, length, rfl⟩ := induction added
          exact ⟨operation :: new, by simp [length], by simp⟩

theorem createVersion_spec {previous version : DataVersion} {number : Nat}
    {agent : Agent} {datalen : Nat} {draws rest : Draws}
    (created : previous.createVersion number agent datalen draws =
      (.ok version, rest)) :
    version.cls = .modifiedVersion ∧ version.data = none ∧
      version.version = number ∧
      ∃ added, added ≠ [] ∧
        version.operations = previous.operations ++ added := by
  simp only [createVersion] at created
  split at created
  · cases created
  · next missing draws drawn =>
      split at created
      · cases created
      · next operations dirty draws added =>
          simp only [Prod.mk.injEq, Except.ok.injEq] at created
          obtain ⟨new, length, rfl⟩ := addOperations_extends added
          obtain ⟨rfl, -⟩ := created
          refine ⟨rfl, rfl, rfl, new, ?_, rfl⟩
          have positive := randint_bounds drawn
          rw [← List.length_pos_iff, length]
          omega

end DataVersion

theorem createData_operations (versions : DataVersions) (index : Nat) :
    (createData versions index).2.map DataVersion.operations =
      versions.map DataVersion.operations := by
  unfold createData
  split
  · rfl
  · next version found =>
      split
      · rfl
      · split
        · rfl
        · split
          · rfl
          · split
            · rfl
            · obtain ⟨bound, rfl⟩ := List.getElem?_eq_some_iff.mp found
              rw [List.map_set]
              apply List.ext_getElem
              · simp
              · intro position _ _
                rw [List.getElem_set]
                split
                · next same => simp [same]
                · rfl

namespace VersionTree

variable {versions : DataVersions} {original : List UInt8}

theorem length_pos (tree : VersionTree versions original) :
    0 < versions.length := by
  obtain ⟨version, found, -⟩ := tree.root
  exact (List.getElem?_eq_some_iff.mp found).1

theorem operations_prefix (tree : VersionTree versions original)
    {first second : Nat} (order : first ≤ second)
    {previous version : DataVersion}
    (atFirst : versions[first]? = some previous)
    (atSecond : versions[second]? = some version) :
    previous.operations <+: version.operations := by
  induction order generalizing version with
  | refl =>
      cases atFirst.symm.trans atSecond
      exact List.prefix_rfl
  | @step second order induction =>
      have bound := (List.getElem?_eq_some_iff.mp atSecond).1
      have atMiddle : versions[second]? = some versions[second] :=
        List.getElem?_eq_getElem (by omega)
      obtain ⟨added, -, extended⟩ := tree.extends_previous atMiddle atSecond
      exact (induction atMiddle).trans ⟨added, extended.symm⟩

/-! The search for a cached predecessor ends at the original at the latest. -/

theorem findPrevious_spec (tree : VersionTree versions original)
    (turns : Nat) {index : Nat} (enough : index < turns)
    (bound : index < versions.length) :
    ∃ position previous data,
      versions.findPrevious turns (index + 1) = some (previous, data) ∧
        position ≤ index ∧ versions[position]? = some previous ∧
        previous.data = some data := by
  induction turns generalizing index with
  | zero => omega
  | succ turns induction =>
      have found : versions[index]? = some versions[index] :=
        List.getElem?_eq_getElem bound
      simp only [DataVersions.findPrevious, DataVersions.getPrevious,
        Nat.add_eq_zero_iff, Nat.one_ne_zero, and_false, if_false,
        Nat.add_sub_cancel, found]
      cases cached : versions[index].cached? with
      | some data =>
          exact ⟨index, versions[index], data, rfl, Nat.le_refl _, found,
            DataVersion.cached?_eq_some cached⟩
      | none =>
          cases index with
          | zero =>
              obtain ⟨version, atRoot, -, -, stored⟩ := tree.root
              cases found.symm.trans atRoot
              rw [DataVersion.cached?_of_data stored tree.nonempty] at cached
              cases cached
          | succ index =>
              obtain ⟨position, previous, data, result, le, stored⟩ :=
                @induction index (by omega) (by omega)
              exact ⟨position, previous, data, result, by omega, stored⟩

theorem createData_eq (tree : VersionTree versions original)
    {index : Nat} {version : DataVersion}
    (found : versions[index]? = some version) :
    (createData versions index).1 = replay version.operations original := by
  cases index with
  | zero =>
      obtain ⟨root, atRoot, isOriginal, noOperations, stored⟩ := tree.root
      cases atRoot.symm.trans found
      simp only [createData, found, isOriginal, stored, noOperations]
      rfl
  | succ index =>
      have bound := (List.getElem?_eq_some_iff.mp found).1
      simp only [createData, found, tree.modified found]
      cases cached : version.cached? with
      | some data =>
          exact (tree.cache found (DataVersion.cached?_eq_some cached)).symm
      | none =>
          obtain ⟨position, previous, data, result, le, atPosition, stored⟩ :=
            tree.findPrevious_spec versions.length (show index < _ by omega)
              (by omega)
          have whole :=
            replay_drop
              (tree.operations_prefix (by omega) atPosition found)
              (tree.cache atPosition stored)
          simp only [result, whole]
          cases replay version.operations original <;> rfl

/-! Steps on the list. -/

private theorem getElem?_of_take {number index : Nat} {version : DataVersion}
    (found : (versions.take number)[index]? = some version) :
    versions[index]? = some version := by
  rw [List.getElem?_take] at found
  split at found
  · exact found
  · cases found

theorem take (tree : VersionTree versions original) {number : Nat}
    (positive : 0 < number) : VersionTree (versions.take number) original where
  nonempty := tree.nonempty
  root := by
    obtain ⟨version, found, facts⟩ := tree.root
    exact ⟨version, by rw [List.getElem?_take_of_lt positive, found], facts⟩
  modified found := tree.modified (getElem?_of_take found)
  number found := tree.number (getElem?_of_take found)
  extends_previous atIndex atNext :=
    tree.extends_previous (getElem?_of_take atIndex)
      (getElem?_of_take atNext)
  cache found := tree.cache (getElem?_of_take found)

/-! Dropping or recomputing caches: the versions stay what they are. -/

theorem recache (tree : VersionTree versions original)
    {recached : DataVersions} (length : recached.length = versions.length)
    (same : ∀ {index : Nat} {version cleared : DataVersion},
      versions[index]? = some version → recached[index]? = some cleared →
      cleared.cls = version.cls ∧ cleared.operations = version.operations ∧
        cleared.version = version.version ∧
        (version.cls = .originalVersion → cleared.data = version.data) ∧
        ∀ data, cleared.data = some data →
          replay version.operations original = .ok data) :
    VersionTree recached original := by
  have source : ∀ {index : Nat} {cleared : DataVersion},
      recached[index]? = some cleared →
      ∃ version, versions[index]? = some version := by
    intro index cleared found
    have bound := (List.getElem?_eq_some_iff.mp found).1
    exact ⟨versions[index], List.getElem?_eq_getElem (by omega)⟩
  refine ⟨tree.nonempty, ?_, ?_, ?_, ?_, ?_⟩
  · obtain ⟨version, found, isOriginal, noOperations, stored⟩ := tree.root
    have bound := tree.length_pos
    have atRoot : recached[0]? = some recached[0] :=
      List.getElem?_eq_getElem (by omega)
    obtain ⟨cls, operations, -, data, -⟩ := same found atRoot
    exact ⟨recached[0], atRoot, cls.trans isOriginal,
      operations.trans noOperations, (data isOriginal).trans stored⟩
  · intro index cleared found
    obtain ⟨version, atIndex⟩ := source found
    exact (same atIndex found).1.trans (tree.modified atIndex)
  · intro index cleared found
    obtain ⟨version, atIndex⟩ := source found
    exact (same atIndex found).2.2.1.trans (tree.number atIndex)
  · intro index previous cleared atIndex atNext
    obtain ⟨first, atFirst⟩ := source atIndex
    obtain ⟨second, atSecond⟩ := source atNext
    rw [(same atFirst atIndex).2.1, (same atSecond atNext).2.1]
    exact tree.extends_previous atFirst atSecond
  · intro index cleared data found stored
    obtain ⟨version, atIndex⟩ := source found
    obtain ⟨-, operations, -, -, replayed⟩ := same atIndex found
    rw [operations]
    exact replayed data stored

theorem createData_tree (tree : VersionTree versions original) (index : Nat) :
    VersionTree (createData versions index).2 original := by
  unfold createData
  split
  · exact tree
  · next version found =>
      split
      · exact tree
      · next isModified =>
          split
          · exact tree
          · next missing =>
              split
              · exact tree
              · next previous data searched =>
                  split
                  · exact tree
                  · next result replayed =>
                      have whole := tree.createData_eq found
                      simp only [createData, found, isModified, missing,
                        searched, replayed] at whole
                      refine tree.recache List.length_set ?_
                      intro position other cleared atPosition atCleared
                      by_cases same : index = position
                      · subst same
                        cases found.symm.trans atPosition
                        rw [List.getElem?_set_self
                          (List.getElem?_eq_some_iff.mp found).1] at atCleared
                        cases atCleared
                        refine ⟨rfl, rfl, rfl, ?_, ?_⟩
                        · rw [isModified]
                          intro absurdity
                          cases absurdity
                        · intro stored equality
                          rw [← whole, Option.some.inj equality]
                      · rw [List.getElem?_set_ne same, atPosition] at atCleared
                        cases atCleared
                        exact ⟨rfl, rfl, rfl, fun _ => rfl,
                          fun _ stored => tree.cache atPosition stored⟩

theorem clearOld (tree : VersionTree versions original) (number : Nat) :
    VersionTree ((versions.take number).map DataVersion.clearCache ++
      versions.drop number) original := by
  refine tree.recache (by simp; omega) ?_
  intro index version cleared found atCleared
  have bound := (List.getElem?_eq_some_iff.mp found).1
  by_cases old : index < number
  · rw [List.getElem?_append_left (by simp; omega), List.getElem?_map,
      List.getElem?_take_of_lt old, found] at atCleared
    cases atCleared
    refine ⟨by simp, by simp, by simp, ?_, ?_⟩
    · intro isOriginal
      rw [DataVersion.clearCache_original isOriginal]
    · intro data stored
      exact tree.cache found (DataVersion.clearCache_data stored)
  · rw [List.getElem?_append_right (by simp; omega), List.getElem?_drop,
      show number + (index - ((versions.take number).map
        DataVersion.clearCache).length) = index by simp; omega,
      found] at atCleared
    cases atCleared
    exact ⟨rfl, rfl, rfl, fun _ => rfl, fun _ stored => tree.cache found stored⟩

theorem append (tree : VersionTree versions original)
    {previous version : DataVersion} {added : List Operation}
    (last : versions.getLast? = some previous)
    (isModified : version.cls = .modifiedVersion)
    (noData : version.data = none)
    (numbered : version.version = versions.getVersionNumber)
    (nonempty : added ≠ [])
    (extended : version.operations = previous.operations ++ added) :
    VersionTree (versions ++ [version]) original := by
  have positive := tree.length_pos
  have new : (versions ++ [version])[versions.length]? = some version := by simp
  have cases : ∀ {index : Nat} {found : DataVersion},
      (versions ++ [version])[index]? = some found →
      versions[index]? = some found ∨
        (index = versions.length ∧ found = version) := by
    intro index found atIndex
    by_cases bound : index < versions.length
    · rw [List.getElem?_append_left bound] at atIndex
      exact .inl atIndex
    · have limit := (List.getElem?_eq_some_iff.mp atIndex).1
      simp only [List.length_append, List.length_singleton] at limit
      have : index = versions.length := by omega
      subst this
      exact .inr ⟨rfl, Option.some.inj (atIndex.symm.trans new)⟩
  refine ⟨tree.nonempty, ?_, ?_, ?_, ?_, ?_⟩
  · obtain ⟨root, found, facts⟩ := tree.root
    exact ⟨root, by rw [List.getElem?_append_left positive, found], facts⟩
  · intro index found atIndex
    rcases cases atIndex with old | ⟨-, rfl⟩
    · exact tree.modified old
    · exact isModified
  · intro index found atIndex
    rcases cases atIndex with old | ⟨rfl, rfl⟩
    · exact tree.number old
    · exact numbered
  · intro index first second atIndex atNext
    rcases cases atNext with old | ⟨position, rfl⟩
    · have bound := (List.getElem?_eq_some_iff.mp old).1
      rw [List.getElem?_append_left (by omega)] at atIndex
      exact tree.extends_previous atIndex old
    · rw [List.getElem?_append_left (by omega)] at atIndex
      rw [List.getLast?_eq_getElem?, show versions.length - 1 = index by omega]
        at last
      cases atIndex.symm.trans last
      exact ⟨added, nonempty, extended⟩
  · intro index found data atIndex stored
    rcases cases atIndex with old | ⟨-, rfl⟩
    · exact tree.cache old stored
    · rw [noData] at stored
      cases stored

theorem original_tree {data : List UInt8} (nonempty : data ≠ []) :
    VersionTree (DataVersions.addVersion [] (IncrMangle.originalVersion [] data))
      data := by
  refine ⟨nonempty, ⟨_, rfl, rfl, rfl, rfl⟩, ?_, ?_, ?_, ?_⟩
  · intro index version found
    cases found
  · intro index version found
    cases index with
    | zero => cases found; rfl
    | succ index => cases found
  · intro index previous version atIndex atNext
    cases atNext
  · intro index version bytes found stored
    cases index with
    | zero => cases found; cases stored; rfl
    | succ index => cases found

theorem getLast (tree : VersionTree versions original) :
    ∃ version, versions.getLast? = some version ∧
      versions[versions.length - 1]? = some version := by
  have bound := tree.length_pos
  refine ⟨versions[versions.length - 1], ?_, List.getElem?_eq_getElem (by omega)⟩
  rw [List.getLast?_eq_getElem?, List.getElem?_eq_getElem (by omega)]

theorem revert_tree (tree : VersionTree versions original) :
    VersionTree (IncrMangle.revert versions (versions.length - 1)) original := by
  unfold IncrMangle.revert
  split
  · exact tree
  · next version found =>
      split
      · exact tree
      · next isModified =>
          have bound : 1 < versions.length := by
            by_contra small
            have positive := tree.length_pos
            obtain ⟨root, atRoot, isOriginal, -⟩ := tree.root
            rw [show versions.length - 1 = 0 by omega, atRoot] at found
            cases found
            rw [isOriginal] at isModified
            cases isModified
          have dropped : versions.removeVersion (versions.length - 1) =
              versions.take (versions.length - 1) := by
            rw [DataVersions.removeVersion, List.eraseIdx_eq_take_drop_succ,
              List.drop_eq_nil_of_le (by omega), List.append_nil]
          rw [dropped]
          exact tree.take (by omega)

theorem rollbackLast_tree (tree : VersionTree versions original)
    {result : DataVersions} {draws rest : Draws}
    (rolled : IncrMangle.rollbackLast versions draws = (.ok result, rest)) :
    VersionTree result original := by
  unfold IncrMangle.rollbackLast at rolled
  split at rolled
  · cases rolled
  · split at rolled
    · cases rolled
    · next number draws drawn =>
        have bounds := randint_bounds drawn
        cases rolled
        exact tree.take (by omega)

theorem checkPreviousVersion_tree {self : IncrMangle} {agent : Agent}
    {version : DataVersion} {result : DataVersions} {draws rest : Draws}
    (tree : VersionTree self.versions original)
    (checked : self.checkPreviousVersion agent version draws =
      (.ok result, rest)) :
    VersionTree result original := by
  unfold IncrMangle.checkPreviousVersion at checked
  split at checked
  · cases checked
    exact tree.take Nat.one_pos
  · split at checked
    · cases checked
      exact tree.revert_tree
    · split at checked
      · cases checked
        exact tree.revert_tree
      · split at checked
        · exact tree.rollbackLast_tree checked
        · cases checked
          exact tree

theorem newVersion_tree (tree : VersionTree versions original) {agent : Agent}
    {datalen : Nat} {result : DataVersions} {draws rest : Draws}
    (created : IncrMangle.newVersion versions agent datalen draws =
      (.ok result, rest)) :
    VersionTree result original := by
  unfold IncrMangle.newVersion at created
  split at created
  · cases created
  · next previous last =>
      split at created
      · next version draws made =>
          obtain ⟨isModified, noData, numbered, added, nonempty, extended⟩ :=
            DataVersion.createVersion_spec made
          cases created
          exact (tree.append last isModified noData numbered nonempty
            extended).clearOld _
      · exact tree.rollbackLast_tree created
      · cases created

end VersionTree

/-! Histories. -/

namespace IncrMangle

def firstData (agent : Agent) : List SessionEvent → Option (List UInt8)
  | [] => none
  | .done _ :: events => firstData agent events
  | .start content _ :: events =>
      match readData agent content with
      | .error _ => firstData agent events
      | .ok data => some data

theorem readData_nonempty {agent : Agent} {content data : List UInt8}
    (read : readData agent content = .ok data) : data ≠ [] := by
  unfold readData at read
  split at read
  · cases read
  · next nonempty =>
      split at read
      · cases read; exact nonempty
      · cases read; exact nonempty
      · cases read
        intro empty
        rw [List.take_eq_nil_iff] at empty
        rcases empty with zero | empty
        · omega
        · exact nonempty empty

theorem currentVersions_tree {self : IncrMangle} {agent : Agent}
    {data original : List UInt8} {result : DataVersions} {draws rest : Draws}
    (tree : VersionTree self.versions original)
    (current : self.currentVersions agent data draws = (.ok result, rest)) :
    VersionTree result original := by
  obtain ⟨version, last, -⟩ := tree.getLast
  simp only [currentVersions, last] at current
  exact tree.checkPreviousVersion_tree current

theorem currentVersions_first {self : IncrMangle} {agent : Agent}
    {data : List UInt8} {result : DataVersions} {draws rest : Draws}
    (empty : self.versions = []) (nonempty : data ≠ [])
    (current : self.currentVersions agent data draws = (.ok result, rest)) :
    VersionTree result data := by
  simp only [currentVersions, empty, List.getLast?_nil] at current
  cases current
  exact VersionTree.original_tree nonempty

/-! What `mangleData` leaves, once its starting list is a tree. -/

theorem mangleData_of_current {self : IncrMangle} {agent : Agent}
    {data original : List UInt8} {current : DataVersions} {draws rest : Draws}
    (tree : VersionTree current original)
    (started : self.currentVersions agent data draws = (.ok current, rest)) :
    VersionTree (self.mangleData agent data draws).2.versions original ∧
      ∀ file, (self.mangleData agent data draws).1 = .ok file →
        ∃ version,
          (self.mangleData agent data draws).2.versions.getLast? =
            some version ∧
          replay version.operations original = .ok file := by
  simp only [mangleData, started]
  cases created : newVersion current agent data.length rest with
  | mk outcome final =>
      cases outcome with
      | error error =>
          refine ⟨tree, ?_⟩
          intro file result
          cases result
      | ok versions =>
          have newTree := tree.newVersion_tree created
          refine ⟨newTree.createData_tree _, ?_⟩
          intro file result
          obtain ⟨version, last, atLast⟩ := newTree.getLast
          have finalTree := newTree.createData_tree (versions.length - 1)
          obtain ⟨cached, finalLast, -⟩ := finalTree.getLast
          have operations := congrArg List.getLast?
            (createData_operations versions (versions.length - 1))
          simp only [List.getLast?_map, last, finalLast, Option.map_some,
            Option.some.injEq] at operations
          refine ⟨cached, finalLast, ?_⟩
          rw [operations, ← newTree.createData_eq atLast]
          exact result

theorem mangleData_tree {self : IncrMangle} {agent : Agent}
    {data original : List UInt8} {draws : Draws}
    (tree : VersionTree self.versions original) :
    VersionTree (self.mangleData agent data draws).2.versions original := by
  cases started : self.currentVersions agent data draws with
  | mk outcome rest =>
      cases outcome with
      | error error => simpa only [mangleData, started] using tree
      | ok current =>
          exact (mangleData_of_current (currentVersions_tree tree started)
            started).1

theorem onSessionDone_versions (self : IncrMangle) (agent : Agent)
    (score : Rat) : (self.onSessionDone agent score).versions = self.versions := by
  unfold onSessionDone
  split
  · rfl
  · split <;> rfl

theorem step_tree {self : IncrMangle} {agent : Agent} {original : List UInt8}
    (tree : VersionTree self.versions original) (event : SessionEvent) :
    VersionTree (self.step agent event).versions original := by
  cases event with
  | done score => simpa only [step, onSessionDone_versions] using tree
  | start content draws =>
      simp only [step, onSessionStart]
      split
      · exact tree
      · exact mangleData_tree tree

/-! The first session that can read its file creates the original version. -/

theorem firstSession_tree {self : IncrMangle} {agent : Agent}
    {content data : List UInt8} {draws : Draws} (empty : self.versions = [])
    (read : readData agent content = .ok data) :
    VersionTree (self.onSessionStart agent content draws).2.versions data := by
  simp only [onSessionStart, read]
  have started : self.currentVersions agent data draws =
      (.ok (DataVersions.addVersion [] (originalVersion [] data)), draws) := by
    simp [currentVersions, empty]
  exact (mangleData_of_current
    (currentVersions_first empty (readData_nonempty read) started) started).1

theorem run_tree {agent : Agent} {original : List UInt8} (self : IncrMangle)
    (empty : self.versions = []) {events : List SessionEvent}
    (first : firstData agent events = some original) :
    VersionTree (Transition.run (step agent) self events).versions original := by
  induction events generalizing self with
  | nil => cases first
  | cons event events induction =>
      rw [Transition.run_cons]
      cases event with
      | done score =>
          exact induction _ (by rw [step, onSessionDone_versions, empty]) first
      | start content draws =>
          simp only [firstData] at first
          cases read : readData agent content with
          | error error =>
              rw [read] at first
              exact induction _ (by simp [step, onSessionStart, read, empty]) first
          | ok data =>
              rw [read] at first
              cases first
              exact Transition.run_invariant
                (fun self : IncrMangle => VersionTree self.versions original)
                (fun self event tree => step_tree tree event)
                (firstSession_tree empty read) events

theorem run_empty {agent : Agent} {self : IncrMangle}
    (empty : self.versions = []) {events : List SessionEvent}
    (none_read : firstData agent events = none) :
    (Transition.run (step agent) self events).versions = [] := by
  induction events generalizing self with
  | nil => exact empty
  | cons event events induction =>
      rw [Transition.run_cons]
      cases event with
      | done score =>
          exact induction (by rw [step, onSessionDone_versions, empty]) none_read
      | start content draws =>
          simp only [firstData] at none_read
          cases read : readData agent content with
          | error error =>
              rw [read] at none_read
              exact induction (by simp [step, onSessionStart, read, empty])
                none_read
          | ok data =>
              rw [read] at none_read
              cases none_read

theorem firstData_append (agent : Agent) (past : List SessionEvent)
    (event : SessionEvent) :
    firstData agent (past ++ [event]) =
      (firstData agent past).or (firstData agent [event]) := by
  induction past with
  | nil => rfl
  | cons head past induction =>
      cases head with
      | done score => exact induction
      | start content draws =>
          simp only [List.cons_append, firstData]
          cases readData agent content with
          | error error => exact induction
          | ok data => rfl

/-! The file a session writes is the replay of its current version. -/

theorem session_file {agent : Agent} {past : List SessionEvent}
    {content original file : List UInt8} {draws : Draws}
    (first : firstData agent (past ++ [.start content draws]) = some original)
    (written : ((history agent past).onSessionStart agent content draws).1 =
      .ok file) :
    ∃ version,
      (history agent (past ++ [.start content draws])).versions.getLast? =
        some version ∧
      replay version.operations original = .ok file := by
  rw [history, Transition.run_append, Transition.run_cons, Transition.run_nil]
  change ∃ version,
    ((history agent past).onSessionStart agent content draws).2.versions.getLast?
      = some version ∧ _
  cases read : readData agent content with
  | error error =>
      rw [onSessionStart, read] at written
      cases written
  | ok data =>
      rw [onSessionStart, read] at written ⊢
      cases started : (history agent past).currentVersions agent data draws with
      | mk outcome rest =>
          cases outcome with
          | error error =>
              simp only [mangleData, started] at written
              cases written
          | ok current =>
              have tree : VersionTree current original := by
                rw [firstData_append] at first
                cases before : firstData agent past with
                | none =>
                    rw [before] at first
                    simp only [firstData, read, Option.none_or] at first
                    cases first
                    exact currentVersions_first (run_empty rfl before)
                      (readData_nonempty read) started
                | some earlier =>
                    rw [before] at first
                    cases first
                    exact currentVersions_tree (run_tree _ rfl before) started
              exact (mangleData_of_current tree started).2 file written

/-! Main result: in every history the kept versions form a numbered chain, and
whatever caches were dropped, the data of every kept version is the replay of
its operations on the original bytes. -/

theorem version_tree (agent : Agent) (events : List SessionEvent)
    (original : List UInt8) (first : firstData agent events = some original) :
    VersionTree (history agent events).versions original ∧
      (∀ (index : Nat) (version : DataVersion),
        (history agent events).versions[index]? = some version →
        (createData (history agent events).versions index).1 =
          replay version.operations original) ∧
      ∀ past content draws file, events = past ++ [.start content draws] →
        ((history agent past).onSessionStart agent content draws).1 = .ok file →
        ∃ version,
          (history agent events).versions.getLast? = some version ∧
          replay version.operations original = .ok file := by
  have tree := run_tree {} rfl first
  refine ⟨tree, ?_, ?_⟩
  · intro index version found
    exact tree.createData_eq found
  · intro past content draws file shape written
    subst shape
    exact session_file first written

theorem version_tree_one_session :
    VersionTree (history {} [.start [7, 8] (fun _ => 0)]).versions [7, 8] :=
  (version_tree {} [.start [7, 8] (fun _ => 0)] [7, 8] rfl).1

end IncrMangle

end Segvault.Fusil
