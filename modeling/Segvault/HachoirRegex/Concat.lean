import Segvault.HachoirRegex.Operators
import Segvault.HachoirRegex.Writes
import Segvault.Returns

namespace Segvault.HachoirRegex

namespace Tree

/-! One step of `&`: the heap follows the trees where the written objects are
reached in one way only. -/

structure Appended (h : Heap) (changed : Ref → Prop) (result : Tree × Ref)
    (h' : Heap) : Prop where
  rep : result.1.Rep h'
  size : h'.size = result.2
  keeps : h.KeepsBut changed h'

/-- The heap after `t._and(u)` with the given result. -/
def After (h : Heap) (t u : Tree) (h' : Heap) : Option (Tree × Ref) → Prop
  | some result => Appended h (Written t u) result h'
  | none => h' = h

theorem underAnd_regexAnd {self regex last : Ref} {h : Heap} {items : List Ref}
    {node : Node} (here : h.node? self = some (.regexAnd (items ++ [last])))
    (there : h.node? regex = some node) (notAnd : ∀ content, node ≠ .regexAnd content)
    (fuel : Nat) :
    underAnd (fuel + 1) self regex h =
      (underAnd fuel last regex h >>= fun (newItem, h) =>
        match newItem with
        | some newItem => do
            let h ← h.setLast self newItem
            some (some self, h)
        | none => do
            let content ← h.content? self
            let (new, h) := h.new (.regexAnd (content ++ [regex]))
            some (some new, h)) := by
  cases node with
  | regexAnd content => exact absurd rfl (notAnd content)
  | _ =>
      rewrite [underAnd, here, there]
      change ((items ++ [last]).getLast? >>= _) = _
      rewrite [List.getLast?_concat]
      rfl

theorem underAnd_atom {h : Heap} {t u : Tree} (rept : t.Rep h) (repu : u.Rep h)
    (notAnd : t.isAnd = false) :
    ∃ h', (∀ fuel, underAnd (fuel + 1) t.ref u.ref h =
        some ((absorb h.size t u).map (·.1.ref), h')) ∧
      After h t u h' (absorb h.size t u) := by
  have hereT := rept.here
  have hereU := repu.here
  have kept : ∀ result : Tree × Ref, result.1.Rep h → result.2 = h.size →
      Appended h (Written t u) result h :=
    fun result rep size => ⟨rep, size.symm, Heap.KeepsBut.refl _ _⟩
  cases t with
  | regexAnd ref init last => cases notAnd
  | regexOr ref content =>
      refine ⟨h, fun fuel => ?_, rfl⟩
      simp only [underAnd, hereT, hereU, node]
      rfl
  | regexRepeat ref regex min max =>
      refine ⟨h, fun fuel => ?_, rfl⟩
      simp only [underAnd, hereT, hereU, node]
      rfl
  | atom ref leaf =>
      cases leaf with
      | regexEmpty =>
          refine ⟨h, fun fuel => ?_, kept _ repu rfl⟩
          simp only [underAnd, hereT, hereU, node]
          rfl
      | regexWord | regexStart | regexEnd =>
          cases u with
          | atom refu other =>
              cases other with
              | _ =>
                refine ⟨h, fun fuel => ?_, by first | exact kept _ rept rfl | rfl⟩
                simp only [underAnd, hereT, hereU, node]
                rfl
          | _ =>
              refine ⟨h, fun fuel => ?_, rfl⟩
              simp only [underAnd, hereT, hereU, node]
              rfl
      | regexString text nonempty =>
          cases u with
          | atom refu other =>
              cases other with
              | regexString string otherNonempty =>
                  have whole : text ++ string ≠ [] :=
                    List.append_ne_nil_of_right_ne_nil text otherNonempty
                  let fused : Node := .atom (.regexString (text ++ string) whole)
                  have created : createString (text ++ string) h = h.new fused :=
                    dif_pos whole
                  refine ⟨(h.new fused).2, fun fuel => ?_, ?_⟩
                  · simp only [underAnd, hereT, hereU, node, Option.bind_eq_bind,
                      Option.bind_some, created]
                    rfl
                  · exact ⟨h.new_node? fused, h.new_size fused,
                      (h.new_extends fused).mono fun _ _ none => none.elim⟩
              | _ =>
                refine ⟨h, fun fuel => ?_, rfl⟩
                simp only [underAnd, hereT, hereU, node]
                rfl
          | _ =>
              refine ⟨h, fun fuel => ?_, rfl⟩
              simp only [underAnd, hereT, hereU, node]
              rfl
      | _ =>
          refine ⟨h, fun fuel => ?_, rfl⟩
          cases u with
          | atom refu other =>
              simp only [underAnd, hereT, hereU, node]
              rfl
          | _ =>
              simp only [underAnd, hereT, hereU, node]
              rfl

/-- `self.content[-1] = new_item` when it changes the item: the old item stands
nowhere else in the regex, nor in the new one. -/
theorem setLast_rep {h : Heap} {ref : Ref} {init : List Tree} {old new : Tree}
    (here : h.node? ref = some (.regexAnd (init.map Tree.ref ++ [old.ref])))
    (repInit : RepAll h init) (repNew : new.Rep h)
    (outside : old.ref ≠ new.ref → ref ∉ refsAll init ∧ ref ∉ new.refs) :
    ∃ h', h.setLast ref new.ref = some h' ∧ (regexAnd ref init new).Rep h' ∧
      h'.size = h.size ∧
      h.KeepsBut (fun r => old.ref ≠ new.ref ∧ r = ref) h' := by
  refine ⟨h.setNode ref (.regexAnd (init.map Tree.ref ++ [new.ref])), ?_, ?_, ?_, ?_⟩
  · rw [Heap.setLast, Heap.content?, here]
    simp
  · by_cases same : old.ref = new.ref
    · rw [same] at here
      rw [Heap.setNode_same here]
      exact ⟨here, repInit, repNew⟩
    · obtain ⟨notInit, notNew⟩ := outside same
      have keeps := h.setNode_keeps ref (.regexAnd (init.map Tree.ref ++ [new.ref]))
      refine ⟨Heap.setNode_node? (Heap.node?_lt here), ?_, ?_⟩
      · exact repInit.keeps keeps fun r inside eq => notInit (eq ▸ inside)
      · exact repNew.keeps keeps fun r inside eq => notNew (eq ▸ inside)
  · exact Heap.setNode_size _ _ _
  · by_cases same : old.ref = new.ref
    · rw [same] at here
      rw [Heap.setNode_same here]
      exact Heap.KeepsBut.refl _ _
    · exact (h.setNode_keeps ref _).mono fun r _ eq => ⟨same, eq⟩

theorem underAnd_returns {h : Heap} {t u : Tree} (rept : t.Rep h) (repu : u.Rep h)
    (notBoth : t.isAnd = true → u.isAnd = false)
    (unshared : ∀ r, Written t u r → t.refs.count r ≤ 1 ∧ r ∉ u.refs) :
    ∃ h', Returns (fun fuel => underAnd fuel t.ref u.ref h)
        ((absorb h.size t u).map (·.1.ref), h') ∧
      After h t u h' (absorb h.size t u) := by
  induction t with
  | regexAnd ref init last _ inductionLast =>
      obtain ⟨here, repInit, repLast⟩ := rept
      have notAnd : ∀ content, u.node ≠ .regexAnd content := by
        have single := notBoth rfl
        intro content same
        cases u with
        | regexAnd refu initu lastu => cases single
        | _ => cases same
      obtain ⟨h1, runs, after⟩ := inductionLast repLast (fun _ => notBoth rfl)
        (fun r written => by
          obtain ⟨once, notU⟩ := unshared r (written_last written)
          exact ⟨(once_in_last once (written_mem written)).2.2, notU⟩)
      have step := underAnd_regexAnd here repu.here notAnd
      cases absorbs : absorb h.size last u with
      | none =>
          rw [absorbs] at after runs
          cases after
          let grown : Node := .regexAnd (init.map Tree.ref ++ [last.ref] ++ [u.ref])
          have content : h.content? ref = some (init.map Tree.ref ++ [last.ref]) := by
            rw [Heap.content?, here]
          refine ⟨(h.new grown).2, ?_, ?_⟩
          · refine Returns.call step (Returns.bind runs ?_)
            simp only [Option.map_none, content, absorb, absorbs]
            exact Returns.pure _
          · simp only [absorb, absorbs]
            have grows := h.new_extends grown
            refine ⟨⟨?_, ?_, repu.extends grows⟩, h.new_size grown,
              grows.mono fun _ _ none => none.elim⟩
            · simpa [grown] using h.new_node? grown
            · rw [repAll_iff]
              intro item member
              obtain inInit | isLast := List.mem_append.1 member
              · exact (repAll_iff.1 repInit item inInit).extends grows
              · exact List.mem_singleton.1 isLast ▸ repLast.extends grows
      | some newLast =>
          rw [absorbs] at after runs
          obtain ⟨repNew, size, keeps⟩ := after
          have notRoot : ¬ Written last u ref := fun written =>
            (once_in_last (unshared ref (written_last written)).1
              (written_mem written)).1 rfl
          have repInit1 : RepAll h1 init := repInit.keeps keeps fun r inside written =>
            (once_in_last (unshared r (written_last written)).1
              (written_mem written)).2.1 inside
          obtain ⟨h2, set, rep, size2, keeps2⟩ :=
            setLast_rep (keeps.node? notRoot here) repInit1 repNew (fun changed => by
              have root : Written (regexAnd ref init last) u ref :=
                ⟨[ref], by rw [outcome, outcome_fresh absorbs (Ne.symm changed)], by simp⟩
              obtain ⟨once, notU⟩ := unshared ref root
              obtain ⟨notInit, notLast⟩ := once_at_root once
              refine ⟨notInit, fun inside => ?_⟩
              obtain old | new | fresh := absorb_refs absorbs inside
              · exact notLast old
              · exact notU new
              · exact absurd (Heap.node?_lt here) (fresh ▸ Nat.lt_irrefl _))
          refine ⟨h2, ?_, ?_⟩
          · refine Returns.call step (Returns.bind runs ?_)
            simp only [Option.map_some, set, absorb, absorbs]
            exact Returns.pure _
          · simp only [absorb, absorbs]
            refine ⟨rep, size2.trans size, ?_⟩
            refine (keeps.mono fun r _ written => written_last written).trans
              (keeps2.mono fun r _ changed => ?_)
            obtain ⟨changed, rfl⟩ := changed
            exact ⟨[r], by rw [outcome, outcome_fresh absorbs (Ne.symm changed)], by simp⟩
  | _ =>
      obtain ⟨h', runs, after⟩ := underAnd_atom rept repu rfl
      exact ⟨h', Returns.call runs (Returns.pure _), after⟩

/-! `&` with one item. -/

theorem dunderAnd_step (fuel : Nat) (self regex : Ref) (h : Heap) :
    dunderAnd (fuel + 1) self regex h =
      if h.isEmpty regex then some (self, h)
      else underAnd fuel self regex h >>= fun (newRegex, h) =>
        match newRegex with
        | some newRegex => some (newRegex, h)
        | none => some (h.new (.regexAnd [self, regex])) := by
  rewrite [dunderAnd]
  rfl

theorem dunderAnd_append {h : Heap} {t u : Tree} (rept : t.Rep h) (repu : u.Rep h)
    (notBoth : t.isAnd = true → u.isAnd = false)
    (unshared : u.isEmpty = false →
      ∀ r, Written t u r → t.refs.count r ≤ 1 ∧ r ∉ u.refs) :
    ∃ h', Returns (fun fuel => dunderAnd fuel t.ref u.ref h)
        ((append h.size t u).1.ref, h') ∧
      Appended h (fun r => u.isEmpty = false ∧ Written t u r)
        (append h.size t u) h' := by
  have step := fun fuel => dunderAnd_step fuel t.ref u.ref h
  rw [repu.isEmpty] at step
  unfold append
  cases empty : u.isEmpty with
  | true =>
      refine ⟨h, Returns.call step ?_, rept, rfl, Heap.KeepsBut.refl _ _⟩
      simp only [empty, if_true]
      exact Returns.pure _
  | false =>
      obtain ⟨h1, runs, after⟩ := underAnd_returns rept repu notBoth (unshared empty)
      cases absorbs : absorb h.size t u with
      | some result =>
          rw [absorbs] at runs after
          obtain ⟨rep, size, keeps⟩ := after
          refine ⟨h1, Returns.call step ?_, rep, size,
            keeps.mono fun r _ written => ⟨rfl, written⟩⟩
          simp only [empty, Bool.false_eq_true, if_false]
          exact Returns.bind runs (Returns.pure _)
      | none =>
          rw [absorbs] at runs after
          cases after
          let pair : Node := .regexAnd [t.ref, u.ref]
          have grows := h.new_extends pair
          refine ⟨(h.new pair).2, Returns.call step ?_, ?_, h.new_size pair,
            grows.mono fun _ _ none => none.elim⟩
          · simp only [empty, Bool.false_eq_true, if_false]
            exact Returns.bind runs (Returns.pure _)
          · exact ⟨h.new_node? pair, ⟨rept.extends grows, trivial⟩, repu.extends grows⟩

/-! `&` with the items of a RegexAnd. -/

section Items

variable {h0 : Heap} {shared allowed : Ref → Prop}

/-- The object can be written: it stands in `t` once, the items to come do not
hold it, and the heap `h0` may lose it. -/
structure Free (h0 : Heap) (shared allowed : Ref → Prop) (t : Tree) (r : Ref) : Prop where
  once : t.refs.count r ≤ 1
  apart : ¬ shared r
  mine : allowed r ∨ h0.size ≤ r

/-- The state of the loop before the items whose leaves are `us`. -/
structure Appending (h0 : Heap) (shared allowed : Ref → Prop) (h : Heap) (t : Tree)
    (us : List Tree) : Prop where
  rep : t.Rep h
  isAnd : t.isAnd = true
  keeps : h0.KeepsBut allowed h
  free : ∀ path, firstWrite t us = some path →
    ∀ r ∈ path, Free h0 shared allowed t r

theorem Appending.step (old : ∀ r, shared r → r < h0.size)
    {h h' : Heap} {t u : Tree} {us : List Tree}
    (before : Appending h0 shared allowed h t (u :: us)) (repu : u.Rep h)
    (single : u.isAnd = false) (inside : ∀ r ∈ u.refs, shared r)
    (appended : Appended h (fun r => u.isEmpty = false ∧ Written t u r)
      (append h.size t u) h') :
    Appending h0 shared allowed h' (append h.size t u).1 us := by
  obtain ⟨rept, isAnd, keeps, free⟩ := before
  have written : u.isEmpty = false → ∀ r, Written t u r → Free h0 shared allowed t r := by
    rintro nonempty r ⟨path, insidePath, member⟩
    refine free path ?_ r member
    rw [firstWrite, if_neg (by simp [nonempty]), insidePath]
  refine ⟨appended.rep, append_isAnd isAnd, ?_, ?_⟩
  · refine keeps.andThen appended.keeps ?_
    rintro r bound ⟨nonempty, writes⟩
    obtain here | new := (written nonempty r writes).mine
    · exact here
    · exact absurd bound (by omega)
  · cases empty : u.isEmpty with
    | true =>
        intro path write
        rw [append, if_pos empty] at write ⊢
        exact free path (by rw [firstWrite, if_pos empty, write])
    | false =>
        obtain ⟨result, absorbs⟩ := absorb_isAnd h.size u isAnd
        have appends : append h.size t u = result := by
          rw [append, if_neg (by simp [empty]), absorbs]
        by_cases same : outcome t u = .same
        · rw [outcome_same same] at absorbs
          cases absorbs
          intro path write
          rw [appends] at write ⊢
          refine free path ?_
          rw [firstWrite, if_neg (by simp [empty]), same]
          exact write
        · intro path write r member
          rw [appends] at write ⊢
          have count := absorb_count absorbs r
          have oldT := rept.lt r
          have oldU := repu.lt r
          have grows := keeps.grows
          obtain rfl | writes :=
            spine_absorb single absorbs same r (firstWrite_spine write r member)
          · rw [List.count_eq_zero.2 fun here => Nat.lt_irrefl _ (oldT here),
              List.count_eq_zero.2 fun here => Nat.lt_irrefl _ (oldU here)] at count
            refine ⟨count.trans (by simp), fun here => ?_, Or.inr grows⟩
            exact Nat.not_lt.2 grows (old _ here)
          · obtain ⟨once, apart, mine⟩ := written empty r writes
            have lt := oldT (written_mem writes)
            rw [List.count_eq_zero.2 fun here => apart (inside r here),
              List.count_eq_zero.2 fun here =>
                absurd (List.mem_singleton.1 here) (Nat.ne_of_lt lt)] at count
            exact ⟨by omega, apart, mine⟩

/-- What the loop does with `us`. -/
def Runs (h0 : Heap) (shared allowed : Ref → Prop)
    (run : Nat → Heap → Option (Ref × Heap)) (t : Tree) (us rest : List Tree)
    (h : Heap) : Prop :=
  ∃ h', Returns (fun fuel => run fuel h) ((appendAll h.size t us).1.ref, h') ∧
    h'.size = (appendAll h.size t us).2 ∧
    Appending h0 shared allowed h' (appendAll h.size t us).1 rest

theorem andItems_step {h : Heap} {regex : Ref} {content : List Ref}
    (here : h.content? regex = some content) (total : Ref) (index fuel : Nat) :
    andItems (fuel + 1) total regex index h =
      match content[index]? with
      | none => some (total, h)
      | some item =>
          dunderAnd fuel total item h >>= fun (total, h) =>
            andItems fuel total regex (index + 1) h := by
  rewrite [andItems, here]
  rfl

theorem underAnd_both {h : Heap} {self regex : Ref} {content items : List Ref}
    (here : h.node? self = some (.regexAnd content))
    (there : h.node? regex = some (.regexAnd items)) (fuel : Nat) :
    underAnd (fuel + 1) self regex h =
      (andItems fuel self regex 0 h >>= fun (total, h) => some (some total, h)) := by
  rewrite [underAnd, here, there]
  rfl

/-- The items of `u` from `index` on, when each of them runs. -/
theorem andItems_runs (items : List Tree) (disjoint : ∀ r, shared r → ¬ allowed r)
    {regex : Ref} {node : Node} (here : h0.node? regex = some node)
    (content : ∀ h : Heap, h.node? regex = some node →
      h.content? regex = some (items.map ref)) (sharedRegex : shared regex)
    (each : ∀ item ∈ items, ∀ h t rest,
      Appending h0 shared allowed h t (item.leaves ++ rest) →
      Runs h0 shared allowed (fun fuel => dunderAnd fuel t.ref item.ref) t
        item.leaves rest h)
    {remaining : List Tree} (index : Nat) (suffix : remaining = items.drop index)
    {h : Heap} {t : Tree} {rest : List Tree}
    (before : Appending h0 shared allowed h t (leavesAll remaining ++ rest)) :
    Runs h0 shared allowed (fun fuel => andItems fuel t.ref regex index) t
      (leavesAll remaining) rest h := by
  have hereH := before.keeps.node? (disjoint regex sharedRegex) here
  have step := andItems_step (content h hereH) t.ref index
  rw [List.getElem?_map] at step
  induction remaining generalizing index h t with
  | nil =>
      have past : items[index]? = none := by
        rw [List.getElem?_eq_none_iff, ← List.drop_eq_nil_iff]
        exact suffix.symm
      rw [past] at step
      exact ⟨h, Returns.call step (Returns.pure _), rfl, before⟩
  | cons item remaining induction =>
      have found : items[index]? = some item := by
        rw [← List.head?_drop, ← suffix, List.head?_cons]
      have later : remaining = items.drop (index + 1) := by
        rw [← List.tail_drop, ← suffix, List.tail_cons]
      rw [found] at step
      rw [leavesAll, List.append_assoc] at before
      obtain ⟨h1, runs, size, during⟩ :=
        each item (List.mem_of_getElem? found) h t (leavesAll remaining ++ rest) before
      have hereH1 := during.keeps.node? (disjoint regex sharedRegex) here
      obtain ⟨h2, runsRest, sizeRest, after⟩ := induction (index + 1) later during hereH1 (by
        intro fuel
        rw [andItems_step (content h1 hereH1), List.getElem?_map])
      rw [size] at runsRest sizeRest after
      refine ⟨h2, Returns.call step (Returns.bind runs ?_), ?_, ?_⟩
      · rw [leavesAll, appendAll_append]
        exact runsRest
      · rw [leavesAll, appendAll_append]
        exact sizeRest
      · rw [leavesAll, appendAll_append]
        exact after

/-- `total + u` in a loop over the items of a RegexAnd that holds `u`. -/
theorem dunderAnd_runs (old : ∀ r, shared r → r < h0.size)
    (disjoint : ∀ r, shared r → ¬ allowed r) {u : Tree} (repu : u.Rep h0)
    (inside : ∀ r ∈ u.refs, shared r) {h : Heap} {t : Tree} {rest : List Tree}
    (before : Appending h0 shared allowed h t (u.leaves ++ rest)) :
    Runs h0 shared allowed (fun fuel => dunderAnd fuel t.ref u.ref) t u.leaves rest h := by
  have leaf : ∀ {u : Tree} {h : Heap} {t : Tree} {rest : List Tree}, u.Rep h0 →
      u.isAnd = false → (∀ r ∈ u.refs, shared r) →
      Appending h0 shared allowed h t (u :: rest) →
      Runs h0 shared allowed (fun fuel => dunderAnd fuel t.ref u.ref) t [u] rest h := by
    intro u h t rest repu single inside before
    have repuH := repu.keeps before.keeps fun r member => disjoint r (inside r member)
    obtain ⟨h', runs, appended⟩ := dunderAnd_append before.rep repuH (fun _ => single) (by
      rintro nonempty r ⟨path, insidePath, member⟩
      have free := before.free path
        (by rw [firstWrite, if_neg (by simp [nonempty]), insidePath]) r member
      exact ⟨free.once, fun member => free.apart (inside r member)⟩)
    exact ⟨h', runs, appended.size, before.step old repuH single inside appended⟩
  induction u generalizing h t rest with
  | regexAnd ref init last inductionInit inductionLast =>
      have repuH := repu.keeps before.keeps fun r member => disjoint r (inside r member)
      obtain ⟨contentT, hereT⟩ := before.rep.node_of_isAnd before.isAnd
      have hereU := repu.here
      obtain ⟨_, repInit, repLast⟩ := repu
      rw [leaves_regexAnd] at before ⊢
      obtain ⟨h', runs, size, after⟩ := andItems_runs (init ++ [last])
        disjoint hereU (by
          intro h here
          rw [Heap.content?, here]
          simp [node]) (inside _ (ref_mem_refs _)) (by
        intro item member h t rest before
        obtain inInit | isLast := List.mem_append.1 member
        · refine inductionInit item inInit (repAll_iff.1 repInit item inInit) ?_ before
          intro r here
          exact inside r (List.mem_cons_of_mem _
            (List.mem_append_left _ (mem_refsAll.2 ⟨item, inInit, here⟩)))
        · cases List.mem_singleton.1 isLast
          refine inductionLast repLast ?_ before
          intro r here
          exact inside r (List.mem_cons_of_mem _ (List.mem_append_right _ here)))
        0 rfl before
      refine ⟨h', Returns.call (fun fuel => dunderAnd_step fuel _ _ h) ?_, size, after⟩
      rw [repuH.isEmpty, isEmpty_of_isAnd rfl]
      simp only [Bool.false_eq_true, if_false]
      exact Returns.bind
        (Returns.call (underAnd_both hereT repuH.here)
          (Returns.bind runs (Returns.pure _)))
        (Returns.pure _)
  | atom ref leafAtom => exact leaf repu rfl inside before
  | regexOr ref content => exact leaf repu rfl inside before
  | regexRepeat ref regex min max => exact leaf repu rfl inside before

end Items

/-- `&` follows the trees when no object it writes into is shared. -/
theorem dunderAnd_concat {h : Heap} {t u : Tree} (rept : t.Rep h) (repu : u.Rep h)
    (unshared : ∀ path, rewritten t u = some path →
      ∀ r ∈ path, t.refs.count r ≤ 1 ∧ r ∉ u.refs) :
    ∃ h', Returns (fun fuel => dunderAnd fuel t.ref u.ref h)
        ((concat h.size t u).1.ref, h') ∧
      Appended h (fun r => ∃ path, rewritten t u = some path ∧ r ∈ path)
        (concat h.size t u) h' := by
  cases isAnd : t.isAnd with
  | false =>
      obtain ⟨h', runs, rep, size, keeps⟩ := dunderAnd_append rept repu
        (fun both => absurd (isAnd.symm.trans both) Bool.false_ne_true)
        (fun _ r written => absurd written (not_written isAnd r))
      have alone : concat h.size t u = append h.size t u := by
        rw [concat, isAnd, if_neg Bool.false_ne_true]
      rw [alone]
      exact ⟨h', runs, rep, size,
        keeps.mono fun r _ written => absurd written.2 (not_written isAnd r)⟩
  | true =>
      have whole : concat h.size t u = appendAll h.size t u.leaves := by
        rw [concat, if_pos isAnd]
      have write : rewritten t u = firstWrite t u.leaves := by
        rw [rewritten, if_pos isAnd]
      obtain ⟨h', runs, size, after⟩ := @dunderAnd_runs h (fun r => r ∈ u.refs)
        (fun r => ∃ path, rewritten t u = some path ∧ r ∈ path)
        (fun r member => repu.lt r member)
        (fun r member => by
          rintro ⟨path, writes, inside⟩
          exact (unshared path writes r inside).2 member)
        _ repu (fun r member => member) h t [] (by
          rw [List.append_nil]
          refine ⟨rept, isAnd, Heap.KeepsBut.refl _ _, fun path writes r inside => ?_⟩
          rw [← write] at writes
          obtain ⟨once, apart⟩ := unshared path writes r inside
          exact ⟨once, apart, Or.inl ⟨path, writes, inside⟩⟩)
      rw [whole]
      exact ⟨h', runs, after.rep, size, after.keeps⟩

end Tree

open Relation Spans

/-- `a & b` matches what `a` matches followed by what `b` matches, when the
RegexAnd that it writes into, and so those above it, stand once in `a` and not in
`b`. -/
theorem and_exact {h : Heap} {a b : Tree} (repa : a.Rep h) (repb : b.Rep h)
    (unshared : ∀ path, a.rewritten b = some path →
      ∀ r ∈ path, a.refs.count r ≤ 1 ∧ r ∉ b.refs) :
    ∃ (h' : Heap) (whole : Tree),
      Returns (fun fuel => dunderAnd fuel a.ref b.ref h) (whole.ref, h') ∧
      whole.Rep h' ∧
      ∀ dot text, whole.denote dot text =
        Comp (a.denote dot text) (b.denote dot text) := by
  obtain ⟨h', runs, appended⟩ := Tree.dunderAnd_concat repa repb unshared
  exact ⟨h', _, runs, appended.rep, fun dot text => Tree.denote_concat dot text _ _ _⟩

/-! `a.b` as an object of three items, and a string that is no part of it. -/

def dotted : Heap :=
  Heap.ofNodes [.atom (.regexString [97] a_nonempty), .atom .regexDot,
    .atom (.regexString [98] b_nonempty), .regexAnd [0, 1, 2],
    .atom (.regexString [99] c_nonempty)]

def dottedTree : Tree :=
  .regexAnd 3 [.atom 0 (.regexString [97] a_nonempty), .atom 1 .regexDot]
    (.atom 2 (.regexString [98] b_nonempty))

theorem dottedTree_rep : dottedTree.Rep dotted :=
  ⟨rfl, ⟨rfl, rfl, trivial⟩, rfl⟩

theorem and_exact_dotted :
    ∃ (h' : Heap) (whole : Tree),
      Returns (fun fuel => dunderAnd fuel 3 4 dotted) (whole.ref, h') ∧
      whole.Rep h' ∧
      ∀ dot text, whole.denote dot text = Comp (dottedTree.denote dot text)
        ((Tree.atom 4 (.regexString [99] (by decide))).denote dot text) :=
  and_exact (h := dotted) (a := dottedTree)
    (b := .atom 4 (.regexString [99] (by decide))) dottedTree_rep rfl (by
      intro path write
      cases write
      decide)

/-! `a.b & a.b` on one object: the loop comes to the item it has just changed, and
the result is `a.ba.ba`. -/

def dottedTwice : Heap :=
  Heap.ofNodes [.atom (.regexString [97] a_nonempty), .atom .regexDot,
    .atom (.regexString [98] b_nonempty), .regexAnd [0, 1, 5],
    .atom (.regexString [99] c_nonempty),
    .atom (.regexString [98, 97] (by decide)), .regexAnd [0, 1, 5, 1],
    .regexAnd [0, 1, 5, 1, 5]]

def dottedTwiceTree : Tree :=
  .regexAnd 7 [.atom 0 (.regexString [97] a_nonempty), .atom 1 .regexDot,
    .atom 5 (.regexString [98, 97] (by decide)), .atom 1 .regexDot]
    (.atom 5 (.regexString [98, 97] (by decide)))

theorem and_wrong_same_operand :
    ∃ (h : Heap) (a : Tree), a.Rep h ∧ ∃ (h' : Heap) (whole : Tree),
      Returns (fun fuel => dunderAnd fuel a.ref a.ref h) (whole.ref, h') ∧
      whole.Rep h' ∧
      ∃ (dot : UInt8 → Prop) (text : List UInt8),
        whole.denote dot text ≠ Comp (a.denote dot text) (a.denote dot text) := by
  refine ⟨dotted, dottedTree, dottedTree_rep, dottedTwice, dottedTwiceTree, ?_,
    ⟨rfl, ⟨rfl, rfl, rfl, rfl, trivial⟩, rfl⟩, fun char => char ≠ 10,
    [97, 120, 98, 97, 120, 98], ?_⟩
  · refine ⟨9, fun fuel enough => ?_⟩
    obtain ⟨more, rfl⟩ := Nat.exists_eq_add_of_le' enough
    rfl
  · intro same
    have right : Comp (dottedTree.denote (fun char => char ≠ 10) [97, 120, 98, 97, 120, 98])
        (dottedTree.denote (fun char => char ≠ 10) [97, 120, 98, 97, 120, 98]) 0 6 :=
      ⟨3, ⟨2, ⟨1, rfl, 2, ⟨120, by decide, rfl⟩, rfl⟩, rfl⟩,
        ⟨5, ⟨4, rfl, 5, ⟨120, by decide, rfl⟩, rfl⟩, rfl⟩⟩
    rw [← same] at right
    obtain ⟨_, ⟨_, first, _, second, _, third, _, fourth, rfl⟩, fifth⟩ := right
    have lengthFirst := word_length first
    have lengthSecond := symbol_length second
    have lengthThird := word_length third
    have lengthFourth := symbol_length fourth
    have lengthFifth := word_length fifth
    simp at lengthFirst lengthSecond lengthThird lengthFourth lengthFifth
    omega

end Segvault.HachoirRegex
