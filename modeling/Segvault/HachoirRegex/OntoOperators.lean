import Segvault.HachoirRegex.Onto
import Segvault.HachoirRegex.Concat

namespace Segvault.HachoirRegex

/-! The methods of the regex classes do the same on top of another heap. More fuel than
was enough changes nothing. -/

section Onto

variable {k : Heap} {held : Heap → Prop} {h h' : Heap}

/-! `==` -/

theorem eq_onto (onto : Onto k held h h') (fuel : Nat) :
    (∀ more, fuel ≤ more → ∀ self regex same, dunderEq fuel self regex h = some same →
      dunderEq more (k.up self) (k.up regex) h' = some same) ∧
    ∀ more, fuel ≤ more → ∀ pairs same, allEq fuel pairs h = some same →
      allEq more (pairs.map (Prod.map k.up k.up)) h' = some same := by
  induction fuel with
  | zero =>
      refine ⟨fun more _ self regex same ran => ?_, fun more _ pairs same ran => ?_⟩
      · rw [dunderEq] at ran
        cases ran
      · rw [allEq] at ran
        cases ran
  | succ fuel induction =>
      obtain ⟨inductionEq, inductionAll⟩ := induction
      refine ⟨fun more enough self regex same ran => ?_, fun more enough pairs same ran => ?_⟩
      · obtain ⟨more, rfl⟩ : ∃ less, more = less + 1 := ⟨more - 1, by omega⟩
        have enough := Nat.le_of_succ_le_succ enough
        rw [dunderEq] at ran
        obtain ⟨a, hereA, ran⟩ := Option.bind_eq_some_iff.mp ran
        obtain ⟨b, hereB, ran⟩ := Option.bind_eq_some_iff.mp ran
        rewrite [dunderEq, onto.node? hereA, onto.node? hereB]
        have contents : ∀ content other : List Ref,
            (if content.length ≠ other.length then some false
              else allEq fuel (content.zip other) h) = some same →
            (if (content.map k.up).length ≠ (other.map k.up).length then some false
              else allEq more ((content.map k.up).zip (other.map k.up)) h') = some same := by
          intro content other ran
          rw [List.length_map, List.length_map, List.zip_map]
          split at ran
          · rwa [if_pos ‹_›]
          · rw [if_neg ‹_›]
            exact inductionAll more enough _ same ran
        cases a with
        | atom a =>
            cases b with
            | atom b =>
                cases ran
                exact congrArg some (decide_eq_decide.mpr (Atom.moved_injective _).eq_iff)
            | _ => exact ran
        | regexAnd content =>
            cases b with
            | regexAnd other => exact contents content other ran
            | _ => exact ran
        | regexOr content =>
            cases b with
            | regexOr other => exact contents content other ran
            | _ => exact ran
        | regexRepeat item min max =>
            cases b with
            | regexRepeat other omin omax =>
                change (if min ≠ omin then some false else if max ≠ omax then some false
                  else dunderEq fuel item other h) = some same at ran
                change (if min ≠ omin then some false else if max ≠ omax then some false
                  else dunderEq more (k.up item) (k.up other) h') = some same
                split_ifs at ran ⊢
                · exact ran
                · exact ran
                · exact inductionEq more enough item other same ran
            | _ => exact ran
      · obtain ⟨more, rfl⟩ : ∃ less, more = less + 1 := ⟨more - 1, by omega⟩
        have enough := Nat.le_of_succ_le_succ enough
        cases pairs with
        | nil => exact ran
        | cons pair pairs =>
            change (dunderEq fuel pair.1 pair.2 h >>= fun same =>
              if same then allEq fuel pairs h else some false) = some same at ran
            obtain ⟨first, ranFirst, ran⟩ := Option.bind_eq_some_iff.mp ran
            change (dunderEq more (k.up pair.1) (k.up pair.2) h' >>= fun same =>
              if same then allEq more (pairs.map (Prod.map k.up k.up)) h' else some false) =
              some same
            rw [inductionEq more enough _ _ _ ranFirst]
            cases first with
            | true => exact inductionAll more enough pairs same ran
            | false => exact ran

section Reads

variable (onto : Onto k held h h') {fuel more : Nat} (enough : fuel ≤ more)
include onto enough

theorem dunderEq_onto {self regex : Ref} {same : Bool}
    (ran : dunderEq fuel self regex h = some same) :
    dunderEq more (k.up self) (k.up regex) h' = some same :=
  (eq_onto onto fuel).1 more enough self regex same ran

theorem contains_onto {content : List Ref} {regex : Ref} {found : Bool}
    (ran : contains fuel content regex h = some found) :
    contains more (content.map k.up) (k.up regex) h' = some found := by
  induction content with
  | nil => exact ran
  | cons item content induction =>
      obtain ⟨first, ranFirst, ran⟩ := Option.bind_eq_some_iff.mp ran
      rewrite [List.map_cons, contains, dunderEq_onto onto enough ranFirst]
      cases first with
      | true => exact ran
      | false => exact induction ran

theorem commonItems_onto {contenta contentb : List Ref} {common : Nat}
    (ran : commonItems fuel contenta contentb h = some common) :
    commonItems more (contenta.map k.up) (contentb.map k.up) h' = some common := by
  induction contenta generalizing contentb common with
  | nil => exact ran
  | cons itema contenta induction =>
      cases contentb with
      | nil => exact ran
      | cons itemb contentb =>
          rw [commonItems] at ran
          obtain ⟨first, ranFirst, ran⟩ := Option.bind_eq_some_iff.mp ran
          rewrite [List.map_cons, List.map_cons, commonItems, dunderEq_onto onto enough ranFirst]
          cases first with
          | true =>
              obtain ⟨rest, ranRest, ran⟩ := Option.bind_eq_some_iff.mp ran
              change (commonItems more _ _ h' >>= fun index => some (index + 1)) = some common
              rw [induction ranRest]
              exact ran
          | false => exact ran

theorem orContent_onto {content items kept : List Ref}
    (ran : orContent fuel content items h = some kept) :
    orContent more (content.map k.up) (items.map k.up) h' = some (kept.map k.up) := by
  induction items generalizing content with
  | nil =>
      cases ran
      rfl
  | cons item items induction =>
      rw [orContent] at ran
      obtain ⟨known, ranKnown, ran⟩ := Option.bind_eq_some_iff.mp ran
      rewrite [List.map_cons, orContent, contains_onto onto enough ranKnown]
      cases known with
      | true => exact induction ran
      | false =>
          have later := induction ran
          rw [List.map_append, List.map_singleton] at later
          exact later

end Reads

theorem matchSingleValue_onto (onto : Onto k held h h') (fuel : Nat) {more : Nat}
    (enough : fuel ≤ more) {regex : Ref} {single : Bool}
    (ran : matchSingleValue fuel regex h = some single) :
    matchSingleValue more (k.up regex) h' = some single := by
  induction fuel generalizing more regex single with
  | zero =>
      rw [matchSingleValue] at ran
      cases ran
  | succ fuel induction =>
      obtain ⟨more, rfl⟩ : ∃ less, more = less + 1 := ⟨more - 1, by omega⟩
      have enough := Nat.le_of_succ_le_succ enough
      rw [matchSingleValue] at ran
      obtain ⟨node, here, ran⟩ := Option.bind_eq_some_iff.mp ran
      rewrite [matchSingleValue, onto.node? here]
      cases node with
      | atom leaf =>
          cases leaf with
          | regexRange container ranges exclude =>
              rcases ranges with _ | ⟨item, _ | ⟨other, ranges⟩⟩ <;> exact ran
          | _ => exact ran
      | regexAnd content =>
          change content.allM (fun item => matchSingleValue fuel item h) = some single at ran
          change (content.map k.up).allM (fun item => matchSingleValue more item h') = some single
          clear here
          induction content with
          | nil => exact ran
          | cons item content inductionContent =>
              rw [List.allM] at ran
              obtain ⟨first, ranFirst, ran⟩ := Option.bind_eq_some_iff.mp ran
              rewrite [List.map_cons, List.allM, induction enough ranFirst]
              cases first with
              | true => exact inductionContent ran
              | false => exact ran
      | _ => exact ran

/-! `&` -/

theorem setLast_onto (closed : Preserved held)
    (onto : Onto k held h h') {ref item : Ref} {after : Heap}
    (ran : h.setLast ref item = some after) :
    h'.setLast (k.up ref) (k.up item) = some (k.under after) ∧
      Onto k held after (k.under after) := by
  obtain ⟨content, here, ran⟩ := Option.bind_eq_some_iff.mp ran
  cases ran
  refine ⟨?_, rfl, closed.content ref _ onto.held⟩
  rw [Heap.setLast, onto.content? here, onto.same, ← Heap.setNode_under]
  simp [Heap.upNode]

theorem follows_createString (closed : Preserved held)
    (text : List UInt8) :
    Follows (Onto k held) k.up (fun h => some (createString text h))
      fun h => some (createString text h) := by
  unfold createString
  split
  · exact follows_plain closed (by simp [Node.class, Atom.class]) rfl
  · exact follows_plain closed (by decide) rfl

end Onto

section And

variable {k : Heap} {held : Heap → Prop}

theorem follows_none {α β : Type} {move : α → β} :
    Follows (Onto k held) (Option.map move) (fun h => some (none, h))
      fun h => some (none, h) :=
  Follows.pure rfl

/-- `_and` of a RegexAnd, past the call on its last item. -/
def andLast (self regex : Ref) (newItem : Option Ref) (h : Heap) : Option (Option Ref × Heap) :=
  match newItem with
  | some newItem => h.setLast self newItem >>= fun h => some (some self, h)
  | none =>
      h.content? self >>= fun content =>
        some (h.new (.regexAnd (content ++ [regex]))) >>= fun (new, h) => some (some new, h)

variable (closed : Preserved held)

include closed in
theorem andLast_follows (self regex : Ref) (newItem : Option Ref) :
    Follows (Onto k held) (Option.map k.up) (andLast self regex newItem)
      (andLast (k.up self) (k.up regex) (newItem.map k.up)) := by
  cases newItem with
  | some newItem =>
      intro h h' onto value after ran
      obtain ⟨written, here, ran⟩ := Option.bind_eq_some_iff.mp ran
      cases ran
      obtain ⟨followed, onto'⟩ := setLast_onto closed onto here
      refine ⟨_, ?_, onto'⟩
      change (h'.setLast (k.up self) (k.up newItem) >>= _) = _
      rw [followed]
      rfl
  | none =>
      refine Follows.read (fun h h' onto content here => onto.content? here) fun content => ?_
      exact Follows.bind (follows_plain closed (by simp [Node.class])
        (by simp [Heap.upNode])) fun new => Follows.pure rfl

/-- `_and` once it has the nodes of its operands. -/
def andNodes (fuel : Nat) (self regex : Ref) (a b : Node) (h : Heap) :
    Option (Option Ref × Heap) :=
  match a, b with
  | .atom .regexEmpty, _ => some (some regex, h)
  | .atom .regexWord, .atom .regexWord => some (some self, h)
  | .atom .regexStart, .atom .regexStart => some (some self, h)
  | .atom .regexEnd, .atom .regexEnd => some (some self, h)
  | .atom (.regexString text _), .atom (.regexString other _) =>
      some (createString (text ++ other) h) >>= fun (new, h) => some (some new, h)
  | .regexAnd _, .regexAnd _ =>
      andItems fuel self regex 0 h >>= fun (total, h) => some (some total, h)
  | .regexAnd content, _ =>
      content.getLast? >>= fun last =>
        underAnd fuel last regex h >>= fun (newItem, h) => andLast self regex newItem h
  | _, _ => some (none, h)

theorem underAnd_step (fuel : Nat) (self regex : Ref) :
    underAnd (fuel + 1) self regex = fun h =>
      h.node? self >>= fun a => h.node? regex >>= fun b => andNodes fuel self regex a b h := by
  funext h
  rewrite [underAnd]
  refine congrArg _ (funext fun a => congrArg _ (funext fun b => ?_))
  cases a with
  | atom leaf =>
      cases leaf with
      | regexString text nonempty =>
          cases b with
          | atom other => cases other <;> rfl
          | _ => rfl
      | regexEmpty => rfl
      | regexRange container ranges exclude => rfl
      | regexDot => rfl
      | regexRepeatNone min max => rfl
      | _ =>
          cases b with
          | atom other => cases other <;> rfl
          | _ => rfl
  | regexAnd content =>
      cases b with
      | regexAnd items => rfl
      | _ => 
          simp only [andNodes]
          refine congrArg _ (funext fun last => congrArg _ (funext fun x => ?_))
          cases x.1 <;> rfl
  | _ => rfl

include closed

theorem and_follows (fuel : Nat) :
    (∀ more, fuel ≤ more → ∀ self regex, Follows (Onto k held) (Option.map k.up)
      (underAnd fuel self regex) (underAnd more (k.up self) (k.up regex))) ∧
    (∀ more, fuel ≤ more → ∀ total regex index, Follows (Onto k held) k.up
      (andItems fuel total regex index) (andItems more (k.up total) (k.up regex) index)) ∧
    ∀ more, fuel ≤ more → ∀ self regex, Follows (Onto k held) k.up
      (dunderAnd fuel self regex) (dunderAnd more (k.up self) (k.up regex)) := by
  induction fuel with
  | zero =>
      refine ⟨fun more _ self regex h h' _ value after ran => ?_,
        fun more _ total regex index h h' _ value after ran => ?_,
        fun more _ self regex h h' _ value after ran => ?_⟩
      · rw [underAnd] at ran
        cases ran
      · rw [andItems] at ran
        cases ran
      · rw [dunderAnd] at ran
        cases ran
  | succ fuel induction =>
      obtain ⟨inductionUnder, inductionItems, inductionAnd⟩ := induction
      refine ⟨fun more enough self regex => ?_,
        fun more enough total regex index h h' onto value after ran => ?_,
        fun more enough self regex h h' onto value after ran => ?_⟩
      all_goals
        obtain ⟨more, rfl⟩ : ∃ less, more = less + 1 := ⟨more - 1, by omega⟩
        have enough := Nat.le_of_succ_le_succ enough
      · rw [underAnd_step, underAnd_step]
        refine Follows.read (fun h h' onto a here => onto.node? here) fun a => ?_
        refine Follows.read (fun h h' onto b here => onto.node? here) fun b => ?_
        have last : ∀ content : List Ref, Follows (Onto k held) (Option.map k.up)
            (fun h => content.getLast? >>= fun last =>
              underAnd fuel last regex h >>= fun (newItem, h) => andLast self regex newItem h)
            fun h => (content.map k.up).getLast? >>= fun last =>
              underAnd more last (k.up regex) h >>= fun (newItem, h) =>
                andLast (k.up self) (k.up regex) newItem h := by
          intro content
          refine Follows.read (fun _ _ _ last found => show _ = some (k.up last) from ?_)
            fun last => ?_
          · rw [List.getLast?_map, found]
            rfl
          · exact Follows.bind (inductionUnder more enough last regex)
              (andLast_follows closed self regex)
        cases a with
        | atom leaf =>
            cases b with
            | atom other =>
                cases leaf with
                | regexEmpty => exact Follows.pure rfl
                | regexWord =>
                    cases other with
                    | regexWord => exact Follows.pure rfl
                    | _ => exact follows_none
                | regexStart =>
                    cases other with
                    | regexStart => exact Follows.pure rfl
                    | _ => exact follows_none
                | regexEnd =>
                    cases other with
                    | regexEnd => exact Follows.pure rfl
                    | _ => exact follows_none
                | regexString text nonempty =>
                    cases other with
                    | regexString other nonemptyOther =>
                        exact Follows.bind (follows_createString closed (text ++ other))
                          fun new => Follows.pure rfl
                    | _ => exact follows_none
                | _ => exact follows_none
            | _ =>
                cases leaf with
                | regexEmpty => exact Follows.pure rfl
                | _ => exact follows_none
        | regexAnd content =>
            cases b with
            | regexAnd items =>
                exact Follows.bind (inductionItems more enough self regex 0)
                  fun total => Follows.pure rfl
            | _ => exact last content
        | _ => exact follows_none
      · obtain ⟨content, here⟩ : ∃ content, h.content? regex = some content := by
          rw [andItems] at ran
          obtain ⟨content, here, _⟩ := Option.bind_eq_some_iff.mp ran
          exact ⟨content, here⟩
        rw [Tree.andItems_step here] at ran
        rw [Tree.andItems_step (onto.content? here), List.getElem?_map]
        cases found : content[index]? with
        | none =>
            rw [found] at ran
            cases ran
            exact ⟨h', rfl, onto⟩
        | some item =>
            rw [found] at ran
            exact Follows.bind (inductionAnd more enough total item)
              (fun total => inductionItems more enough total regex (index + 1)) h h' onto
              value after ran
      · rw [Tree.dunderAnd_step] at ran ⊢
        rw [onto.isEmpty]
        split at ran
        · cases ran
          rw [if_pos ‹_›]
          exact ⟨h', rfl, onto⟩
        · rw [if_neg ‹_›]
          refine Follows.bind (inductionUnder more enough self regex) (fun new => ?_) h h' onto
            value after ran
          cases new with
          | none => exact follows_plain closed (by simp [Node.class]) rfl
          | some new => exact Follows.pure rfl

end And

end Segvault.HachoirRegex
