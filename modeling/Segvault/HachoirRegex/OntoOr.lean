import Segvault.HachoirRegex.OntoOperators
import Segvault.HachoirRegex.UnionOr

namespace Segvault.HachoirRegex

section Or

variable {k : Heap} {held : Heap → Prop}
  (closed : Preserved held)
include closed

theorem dunderAnd_follows {fuel more : Nat} (enough : fuel ≤ more) (self regex : Ref) :
    Follows (Onto k held) k.up (dunderAnd fuel self regex)
      (dunderAnd more (k.up self) (k.up regex)) :=
  (and_follows closed fuel).2.2 more enough self regex

/-! `RegexAnd.join` -/

theorem joinItems_follows {fuel more : Nat} (enough : fuel ≤ more) (regex : Ref)
    (items : List Ref) :
    Follows (Onto k held) k.up (joinItems fuel regex items)
      (joinItems more (k.up regex) (items.map k.up)) := by
  induction items generalizing regex with
  | nil => exact Follows.pure rfl
  | cons item items induction =>
      exact Follows.bind (dunderAnd_follows closed enough regex item) fun regex => induction regex

theorem join_follows {fuel more : Nat} (enough : fuel ≤ more) (items : List Ref) :
    Follows (Onto k held) k.up (join fuel items) (join more (items.map k.up)) := by
  cases items with
  | nil => exact follows_plain closed (by decide) rfl
  | cons regex items => exact joinItems_follows closed enough regex items

/-! Ranges. -/

theorem rangeOr_follows {h h' : Heap} (onto : Onto k held h h')
    {ranges branges : List RegexRangeItem}
    (known : ∀ item ∈ ranges ++ branges, h.Knows item) (exclude : Bool) :
    FollowsAt (Onto k held) k.up (rangeOr ranges branges exclude)
      (rangeOr (ranges.map (RegexRangeItem.moved k.items))
        (branges.map (RegexRangeItem.moved k.items)) exclude) h h' := by
  intro value after ran
  obtain ⟨⟨added, items⟩, here, ran⟩ := Option.bind_eq_some_iff.mp ran
  have moved := rangeAddAll_moved k.items ranges branges h.items
  rw [here] at moved
  have same : h'.items = k.items + h.items := congrArg Heap.items onto.same
  cases ran
  refine ⟨_, ?_, rfl, closed.range onto.held known here fun _ member => member⟩
  unfold rangeOr
  rw [same, moved, onto.same]
  exact congrArg some (@Heap.new_under k { h with items := items }
    (.atom (.regexRange .tuple added exclude)))

theorem regexRange_follows {h h' : Heap} (onto : Onto k held h h') {ranges : List RegexRangeItem}
    (known : ∀ item ∈ ranges, h.Knows item) (exclude : Bool) :
    FollowsAt (Onto k held) k.up (regexRange ranges exclude)
      (regexRange (ranges.map (RegexRangeItem.moved k.items)) exclude) h h' := by
  intro value after ran
  obtain ⟨⟨added, items⟩, here, ran⟩ := Option.bind_eq_some_iff.mp ran
  have moved := rangeAddAll_moved k.items [] ranges h.items
  rw [here] at moved
  have same : h'.items = k.items + h.items := congrArg Heap.items onto.same
  have sorted : (added.map (RegexRangeItem.moved k.items)).insertionSort
        (fun first second => first.cmin ≤ second.cmin) =
      (added.insertionSort (fun first second => first.cmin ≤ second.cmin)).map
        (RegexRangeItem.moved k.items) :=
    (List.map_insertionSort _ _ (RegexRangeItem.moved k.items) added
      fun _ _ _ _ => Iff.rfl).symm
  cases ran
  refine ⟨_, ?_, rfl, closed.range onto.held known here fun item member =>
    (List.mem_insertionSort _).mp member⟩
  unfold regexRange
  rw [same, show rangeAddAll [] _ _ = _ from moved, onto.same]
  change some (Heap.new _ (.atom (.regexRange .list ((added.map _).insertionSort _) exclude))) = _
  rw [sorted]
  exact congrArg some (@Heap.new_under k { h with items := items } (.atom (.regexRange .list
    (added.insertionSort fun first second => first.cmin ≤ second.cmin) exclude)))

theorem createRange_follows (first second : UInt8) :
    Follows (Onto k held) k.up (createRange first second) (createRange first second) := by
  intro h h' onto value after ran
  have same : h'.items = k.items + h.items := congrArg Heap.items onto.same
  have grows : h.items ≤ h.items + 1 + 1 := by omega
  have known : ∀ item ∈ [(regexRangeCharacter first h.items).1,
      (regexRangeCharacter second (h.items + 1)).1],
      ({ h with items := h.items + 1 + 1 } : Heap).Knows item := by
    intro item member
    obtain rfl | rfl : item = _ ∨ item = _ := by simpa using member
    · exact .inl (Nat.lt_succ_of_lt (Nat.lt_succ_self h.items))
    · exact .inl (Nat.lt_succ_self (h.items + 1))
  have followed := regexRange_follows closed (onto.items closed grows) known false value after ran
  unfold createRange
  rw [same]
  exact followed

/-! Prefixes. -/

/-- `findPrefix` once it has the nodes of its operands. -/
def prefixNodes (a b : Node) (h : Heap) : Option (Option (Ref × Ref × Ref) × Heap) :=
  match a, b with
  | .atom (.regexString [chara] _), .atom (.regexString [charb] _) =>
      createRange chara charb h >>= fun (range, h) =>
        some (h.new (.atom .regexEmpty)) >>= fun (resta, h) =>
          some (h.new (.atom .regexEmpty)) >>= fun (restb, h) =>
            some (some (range, resta, restb), h)
  | .atom (.regexString texta _), .atom (.regexString textb _) =>
      let lengths := List.range' 1 (min texta.length textb.length)
      let common := commonPrefix texta textb lengths 0
      if common = 0 then some (none, h)
      else
        some (createString (texta.take common) h) >>= fun (shared, h) =>
          some (createString (texta.drop common) h) >>= fun (resta, h) =>
            some (createString (textb.drop common) h) >>= fun (restb, h) =>
              some (some (shared, resta, restb), h)
  | _, _ => some (none, h)

omit closed in
theorem findPrefix_step (self regex : Ref) :
    findPrefix self regex = fun h =>
      h.node? self >>= fun a => h.node? regex >>= fun b => prefixNodes a b h := by
  funext h
  unfold findPrefix
  refine congrArg _ (funext fun a => congrArg _ (funext fun b => ?_))
  cases a with
  | atom leaf =>
      cases leaf with
      | regexString texta nonemptyA =>
          cases b with
          | atom other =>
              cases other with
              | regexString textb nonemptyB =>
                  rcases texta with _ | ⟨chara, _ | ⟨nexta, texta⟩⟩ <;>
                    rcases textb with _ | ⟨charb, _ | ⟨nextb, textb⟩⟩ <;> rfl
              | _ => rcases texta with _ | ⟨chara, _ | ⟨nexta, texta⟩⟩ <;> rfl
          | _ => rcases texta with _ | ⟨chara, _ | ⟨nexta, texta⟩⟩ <;> rfl
      | _ => rfl
  | _ => rfl

/-- The three regexes of a prefix. -/
def Heap.upThree (k : Heap) : Ref × Ref × Ref → Ref × Ref × Ref
  | (shared, resta, restb) => (k.up shared, k.up resta, k.up restb)

theorem strings_follows (texta textb : List UInt8) (nonemptyA : texta ≠ [])
    (nonemptyB : textb ≠ []) :
    Follows (Onto k held) (Option.map k.upThree)
      (prefixNodes (.atom (.regexString texta nonemptyA)) (.atom (.regexString textb nonemptyB)))
      (prefixNodes (.atom (.regexString texta nonemptyA))
        (.atom (.regexString textb nonemptyB))) := by
  have empty : Follows (Onto k held) k.up (fun h => some (h.new (.atom .regexEmpty)))
      fun h => some (h.new (.atom .regexEmpty)) := follows_plain closed (by decide) rfl
  have long : Follows (Onto k held) (Option.map k.upThree)
      (fun h =>
        let lengths := List.range' 1 (min texta.length textb.length)
        let common := commonPrefix texta textb lengths 0
        if common = 0 then some (none, h)
        else
          some (createString (texta.take common) h) >>= fun (shared, h) =>
            some (createString (texta.drop common) h) >>= fun (resta, h) =>
              some (createString (textb.drop common) h) >>= fun (restb, h) =>
                some (some (shared, resta, restb), h))
      (fun h =>
        let lengths := List.range' 1 (min texta.length textb.length)
        let common := commonPrefix texta textb lengths 0
        if common = 0 then some (none, h)
        else
          some (createString (texta.take common) h) >>= fun (shared, h) =>
            some (createString (texta.drop common) h) >>= fun (resta, h) =>
              some (createString (textb.drop common) h) >>= fun (restb, h) =>
                some (some (shared, resta, restb), h)) := by
    refine Follows.ite Iff.rfl (fun _ => Follows.pure rfl) fun _ => ?_
    refine Follows.bind (follows_createString closed _) fun shared => ?_
    refine Follows.bind (follows_createString closed _) fun resta => ?_
    exact Follows.bind (follows_createString closed _) fun restb => Follows.pure rfl
  rcases texta with _ | ⟨chara, _ | ⟨nexta, texta⟩⟩
  · exact long
  · rcases textb with _ | ⟨charb, _ | ⟨nextb, textb⟩⟩
    · exact long
    · refine Follows.bind (createRange_follows closed chara charb) fun range => ?_
      refine Follows.bind empty fun resta => ?_
      exact Follows.bind empty fun restb => Follows.pure rfl
    · exact long
  · exact long

theorem findPrefix_follows (self regex : Ref) :
    Follows (Onto k held) (Option.map k.upThree) (findPrefix self regex)
      (findPrefix (k.up self) (k.up regex)) := by
  rw [findPrefix_step, findPrefix_step]
  refine Follows.read (fun h h' onto a here => onto.node? here) fun a => ?_
  refine Follows.read (fun h h' onto b here => onto.node? here) fun b => ?_
  have none : ∀ {a b a' b' : Node}, (∀ h, prefixNodes a b h = some (none, h)) →
      (∀ h, prefixNodes a' b' h = some (none, h)) →
      Follows (Onto k held) (Option.map k.upThree) (prefixNodes a b) (prefixNodes a' b') := by
    intro a b a' b' nothing nothing'
    rw [show prefixNodes a b = _ from funext nothing, show prefixNodes a' b' = _ from
      funext nothing']
    exact Follows.pure rfl
  cases a with
  | atom leaf =>
      cases leaf with
      | regexString texta nonemptyA =>
          cases b with
          | atom other =>
              cases other with
              | regexString textb nonemptyB => exact strings_follows closed texta textb _ _
              | _ =>
                  rcases texta with _ | ⟨chara, _ | ⟨nexta, texta⟩⟩ <;>
                    exact none (fun _ => rfl) fun _ => rfl
          | _ =>
              rcases texta with _ | ⟨chara, _ | ⟨nexta, texta⟩⟩ <;>
                exact none (fun _ => rfl) fun _ => rfl
      | _ => exact none (fun _ => rfl) fun _ => rfl
  | _ => exact none (fun _ => rfl) fun _ => rfl

theorem regexOr_follows {fuel more : Nat} (enough : fuel ≤ more) (items : List Ref) :
    Follows (Onto k held) k.up (regexOr fuel items) (regexOr more (items.map k.up)) := by
  refine Follows.read (fun h h' onto content ran => show _ = some (content.map k.up) from
    orContent_onto onto enough ran) fun content => ?_
  refine Follows.ite (by rw [List.length_map]) (fun _ => ?_) fun _ => Follows.none
  exact follows_plain closed (by simp [Node.class]) rfl

/-! `|` -/

omit closed in
theorem operandContent_onto {h h' : Heap} (onto : Onto k held h h') {other : Ref}
    {content : List Ref} (here : operandContent other h = some content) :
    operandContent (k.up other) h' = some (content.map k.up) := by
  unfold operandContent at here ⊢
  cases found : h.node? other with
  | none =>
      rw [found] at here
      cases here
  | some node =>
      rw [found] at here
      rw [onto.node? found]
      cases node with
      | atom leaf =>
          cases leaf with
          | regexString text nonempty =>
              cases here
              rfl
          | _ => cases here
      | regexAnd items =>
          cases here
          rfl
      | _ => cases here

/-- `range | char` for a range that is not excluded. -/
def charOr (ranges : List RegexRangeItem) (char : UInt8) (h : Heap) : Option (Ref × Heap) :=
  rangeOr ranges [(regexRangeCharacter char h.items).1] false { h with items := h.items + 1 }

theorem charOr_follows {h h' : Heap} (onto : Onto k held h h') {ranges : List RegexRangeItem}
    (known : ∀ item ∈ ranges, h.Knows item) (char : UInt8) :
    FollowsAt (Onto k held) k.up (charOr ranges char)
      (charOr (ranges.map (RegexRangeItem.moved k.items)) char) h h' := by
  intro value after ran
  have same : h'.items = k.items + h.items := congrArg Heap.items onto.same
  have known : ∀ item ∈ ranges ++ [(regexRangeCharacter char h.items).1],
      ({ h with items := h.items + 1 } : Heap).Knows item := by
    intro item member
    obtain old | new := List.mem_append.mp member
    · exact (known item old).items (Nat.le_succ h.items)
    · obtain rfl := List.mem_singleton.mp new
      exact .inl (Nat.lt_succ_self h.items)
  have followed := rangeOr_follows closed (onto.items closed (Nat.le_succ h.items)) known false
    value after ran
  unfold charOr
  rw [same]
  exact followed

/-- `_or_` of two strings, past findPrefix. -/
def stringOr (fuel : Nat) (reverse : Bool) (common : Option (Ref × Ref × Ref)) (h : Heap) :
    Option (Option Ref × Heap) :=
  match common with
  | none => some (none, h)
  | some (shared, resta, restb) =>
      (if reverse then dunderOr fuel restb resta h else dunderOr fuel resta restb h) >>=
        fun (regex, h) => dunderAnd fuel shared regex h >>= fun (regex, h) =>
          some (some regex, h)

/-- `_or_` once it has the nodes of its operands. -/
def orNodes (fuel : Nat) (self other : Ref) (reverse : Bool) (a b : Node) (h : Heap) :
    Option (Option Ref × Heap) :=
  match a, b with
  | .atom (.regexString _ _), .atom (.regexString _ _) =>
      findPrefix self other h >>= fun (common, h) => stringOr fuel reverse common h
  | .atom (.regexRange _ ranges false), .atom (.regexString [char] _) =>
      charOr ranges char h >>= fun (regex, h) => some (some regex, h)
  | .atom (.regexRange _ ranges exclude), .atom (.regexRange _ branges bexclude) =>
      if exclude = bexclude then
        rangeOr ranges branges exclude h >>= fun (regex, h) => some (some regex, h)
      else some (none, h)
  | .regexAnd _, .atom (.regexString _ _) => andOr fuel self other reverse h
  | .regexAnd _, .regexAnd _ => andOr fuel self other reverse h
  | .regexOr _, .regexOr items =>
      orItems fuel self items h >>= fun (total, h) => some (some total, h)
  | .regexOr content, _ =>
      orEach fuel content 0 self other reverse h >>= fun (regex, h) => some (some regex, h)
  | _, _ => some (none, h)

omit closed in
theorem underOr_step (fuel : Nat) (self other : Ref) (reverse : Bool) :
    underOr (fuel + 1) self other reverse = fun h =>
      h.node? self >>= fun a => h.node? other >>= fun b =>
        orNodes fuel self other reverse a b h := by
  funext h
  rewrite [underOr]
  refine congrArg _ (funext fun a => congrArg _ (funext fun b => ?_))
  cases a with
  | atom leaf =>
      cases leaf with
      | regexString texta nonemptyA =>
          cases b with
          | atom other =>
              cases other with
              | regexString textb nonemptyB =>
                  refine congrArg (findPrefix self other h >>= ·) (funext fun found => ?_)
                  obtain ⟨common, h⟩ := found
                  cases common with
                  | none => rfl
                  | some common => cases reverse <;> rfl
              | _ => rfl
          | _ => rfl
      | regexRange container ranges exclude =>
          cases b with
          | atom other =>
              cases other with
              | regexString text nonempty =>
                  cases exclude <;> rcases text with _ | ⟨char, _ | ⟨next, text⟩⟩ <;> rfl
              | _ => cases exclude <;> rfl
          | _ => cases exclude <;> rfl
      | _ => rfl
  | regexAnd content =>
      cases b with
      | atom other => cases other <;> rfl
      | _ => rfl
  | regexOr content => cases b <;> rfl
  | _ => rfl

/-- The methods behind `|`, with less fuel and with more. -/
structure OrFollows (k : Heap) (held : Heap → Prop) (fuel more : Nat) : Prop where
  under : ∀ self other reverse, Follows (Onto k held) (Option.map k.up)
    (underOr fuel self other reverse) (underOr more (k.up self) (k.up other) reverse)
  andOr : ∀ self other reverse, Follows (Onto k held) (Option.map k.up)
    (andOr fuel self other reverse) (andOr more (k.up self) (k.up other) reverse)
  items : ∀ total items, Follows (Onto k held) k.up
    (orItems fuel total items) (orItems more (k.up total) (items.map k.up))
  each : ∀ content index self other reverse, Follows (Onto k held) k.up
    (orEach fuel content index self other reverse)
    (orEach more (content.map k.up) index (k.up self) (k.up other) reverse)
  or_ : ∀ self other, Follows (Onto k held) (Option.map k.up)
    (or_ fuel self other) (or_ more (k.up self) (k.up other))
  dunder : ∀ self other, Follows (Onto k held) k.up
    (dunderOr fuel self other) (dunderOr more (k.up self) (k.up other))

section Step

variable {fuel more : Nat} (enough : fuel ≤ more) (follows : OrFollows k held fuel more)
include enough follows

theorem stringOr_follows (reverse : Bool) (common : Option (Ref × Ref × Ref)) :
    Follows (Onto k held) (Option.map k.up) (stringOr fuel reverse common)
      (stringOr more reverse (common.map k.upThree)) := by
  cases common with
  | none => exact Follows.pure rfl
  | some common =>
      obtain ⟨shared, resta, restb⟩ := common
      have rests : Follows (Onto k held) k.up
          (fun h => if reverse then dunderOr fuel restb resta h else dunderOr fuel resta restb h)
          (fun h => if reverse then dunderOr more (k.up restb) (k.up resta) h
            else dunderOr more (k.up resta) (k.up restb) h) :=
        Follows.ite Iff.rfl (fun _ => follows.dunder restb resta)
          fun _ => follows.dunder resta restb
      refine Follows.bind rests fun regex => ?_
      exact Follows.bind (dunderAnd_follows closed enough shared regex) fun regex =>
        Follows.pure rfl

theorem orNodes_follows {h h' : Heap} (onto : Onto k held h h') {self other : Ref} (reverse : Bool)
    {a b : Node} (hereA : h.node? self = some a) (hereB : h.node? other = some b) :
    FollowsAt (Onto k held) (Option.map k.up) (orNodes fuel self other reverse a b)
      (orNodes more (k.up self) (k.up other) reverse (k.upNode a) (k.upNode b)) h h' := by
  have none : FollowsAt (Onto k held) (Option.map k.up) (fun h => some ((none : Option Ref), h))
      (fun h => some (none, h)) h h' := follows_none h h' onto
  cases a with
  | atom leaf =>
      cases leaf with
      | regexString texta nonemptyA =>
          cases b with
          | atom other' =>
              cases other' with
              | regexString textb nonemptyB =>
                  exact FollowsAt.bind (findPrefix_follows closed self other h h' onto)
                    (stringOr_follows closed enough follows reverse)
              | _ => exact none
          | _ => exact none
      | regexRange container ranges exclude =>
          cases b with
          | atom other' =>
              cases other' with
              | regexString text nonempty =>
                  cases exclude with
                  | true => exact none
                  | false =>
                      rcases text with _ | ⟨char, _ | ⟨next, text⟩⟩
                      · exact none
                      · exact FollowsAt.bind (charOr_follows closed onto
                          (fun item member => .inr
                            ⟨self, container, ranges, false, hereA, member⟩) char)
                          fun regex => Follows.pure rfl
                      · exact none
              | regexRange other' branges bexclude =>
                  have known : ∀ item ∈ ranges ++ branges, h.Knows item := by
                    intro item member
                    obtain first | second := List.mem_append.mp member
                    · exact .inr ⟨self, container, ranges, exclude, hereA, first⟩
                    · exact .inr ⟨other, other', branges, bexclude, hereB, second⟩
                  have both : FollowsAt (Onto k held) (Option.map k.up)
                      (fun h => if exclude = bexclude then
                          rangeOr ranges branges exclude h >>= fun (regex, h) =>
                            some (some regex, h)
                        else some (Option.none, h))
                      (fun h => if exclude = bexclude then
                          rangeOr (ranges.map (RegexRangeItem.moved k.items))
                            (branges.map (RegexRangeItem.moved k.items)) exclude h >>=
                              fun (regex, h) => some (some regex, h)
                        else some (Option.none, h)) h h' :=
                    FollowsAt.ite Iff.rfl (fun _ => FollowsAt.bind
                      (rangeOr_follows closed onto known exclude) fun regex => Follows.pure rfl)
                      fun _ => none
                  cases exclude <;> exact both
              | _ => cases exclude <;> exact none
          | _ => cases exclude <;> exact none
      | _ => exact none
  | regexAnd content =>
      cases b with
      | atom other' =>
          cases other' with
          | regexString text nonempty => exact follows.andOr self other reverse h h' onto
          | _ => exact none
      | regexAnd items => exact follows.andOr self other reverse h h' onto
      | _ => exact none
  | regexOr content =>
      cases b with
      | regexOr items =>
          exact FollowsAt.bind (follows.items self items h h' onto) fun total => Follows.pure rfl
      | _ =>
          exact FollowsAt.bind (follows.each content 0 self other reverse h h' onto)
            fun regex => Follows.pure rfl
  | regexRepeat regex min max => exact none

omit closed enough follows in
theorem content_follows {other : Ref} {next nextUp : List Ref → Heap → Option (Option Ref × Heap)}
    (later : ∀ content, Follows (Onto k held) (Option.map k.up) (next content)
      (nextUp (content.map k.up))) :
    Follows (Onto k held) (Option.map k.up)
      (fun h => operandContent other h >>= fun content => next content h)
      (fun h => operandContent (k.up other) h >>= fun content => nextUp content h) :=
  Follows.read (fun _ _ onto _ here => operandContent_onto onto here) later

theorem commonBody_follows (first second : Ref) (index : Nat) :
    Follows (Onto k held) (Option.map k.up)
      (fun h => commonBody first second index h fuel)
      (fun h => commonBody (k.up first) (k.up second) index h more) := by
  refine content_follows fun contenta => ?_
  rw [← List.map_drop]
  refine Follows.bind (join_follows closed enough _) fun resta => ?_
  refine content_follows fun contentb => ?_
  rw [← List.map_drop]
  refine Follows.bind (join_follows closed enough _) fun restb => ?_
  refine Follows.bind (follows.dunder resta restb) fun regex => ?_
  refine content_follows fun contenta => ?_
  rw [← List.map_take]
  refine Follows.bind (join_follows closed enough _) fun shared => ?_
  exact Follows.bind (dunderAnd_follows closed enough shared regex) fun regex => Follows.pure rfl

theorem prefixBody_follows (first second shared resta restb : Ref) :
    Follows (Onto k held) (Option.map k.up)
      (fun h => prefixBody first second shared resta restb h fuel)
      (fun h => prefixBody (k.up first) (k.up second) (k.up shared) (k.up resta) (k.up restb) h
        more) := by
  refine content_follows fun contenta => ?_
  rw [← List.map_drop]
  refine Follows.bind (join_follows closed enough _) fun taila => ?_
  refine Follows.bind (dunderAnd_follows closed enough resta taila) fun regexa => ?_
  refine content_follows fun contentb => ?_
  rw [← List.map_drop]
  refine Follows.bind (join_follows closed enough _) fun tailb => ?_
  refine Follows.bind (dunderAnd_follows closed enough restb tailb) fun regexb => ?_
  refine Follows.bind (follows.dunder regexa regexb) fun regex => ?_
  have finish : ∀ single : Bool, Follows (Onto k held) (Option.map k.up)
      (fun h => if single then dunderAnd fuel shared regex h >>= fun (regex, h) =>
          some (some regex, h)
        else some (none, h))
      (fun h => if single then dunderAnd more (k.up shared) (k.up regex) h >>= fun (regex, h) =>
          some (some regex, h)
        else some (none, h)) := by
    intro single
    refine Follows.ite Iff.rfl (fun _ => ?_) fun _ => follows_none
    exact Follows.bind (dunderAnd_follows closed enough shared regex) fun regex => Follows.pure rfl
  refine Follows.read (fun h h' onto single ran => show _ = some (id single) from
    matchSingleValue_onto onto fuel enough ran) fun single => ?_
  refine Follows.ite Iff.rfl (fun _ => finish true) fun _ => ?_
  exact Follows.read (fun h h' onto single ran => show _ = some (id single) from
    matchSingleValue_onto onto fuel enough ran) finish

theorem andOrBody_follows (first second : Ref) :
    Follows (Onto k held) (Option.map k.up)
      (fun h => andOrBody first second h fuel)
      (fun h => andOrBody (k.up first) (k.up second) h more) := by
  refine content_follows fun contenta => ?_
  refine content_follows fun contentb => ?_
  refine Follows.read (fun h h' onto index ran => show _ = some (id index) from
    commonItems_onto onto enough ran) fun index => ?_
  refine Follows.ite Iff.rfl (fun _ => commonBody_follows closed enough follows first second index)
    fun _ => ?_
  refine content_follows fun contenta => ?_
  refine Follows.read (fun _ _ _ heada found => show _ = some (k.up heada) from ?_) fun heada => ?_
  · rw [List.head?_map, found]
    rfl
  refine content_follows fun contentb => ?_
  refine Follows.read (fun _ _ _ headb found => show _ = some (k.up headb) from ?_) fun headb => ?_
  · rw [List.head?_map, found]
    rfl
  refine Follows.bind (findPrefix_follows closed heada headb) fun common => ?_
  cases common with
  | none => exact follows_none
  | some common =>
      obtain ⟨shared, resta, restb⟩ := common
      exact prefixBody_follows closed enough follows first second shared resta restb

omit closed enough in
theorem orByClass_follows (self other : Ref) :
    Follows (Onto k held) (Option.map k.up) (fun h => orByClass self other h fuel)
      (fun h => orByClass (k.up self) (k.up other) h more) := by
  refine Follows.read (fun h h' onto a here => onto.node? here) fun a => ?_
  refine Follows.read (fun h h' onto b here => onto.node? here) fun b => ?_
  refine Follows.ite (by rw [Heap.class_upNode, Heap.class_upNode]) (fun _ => ?_)
    fun _ => follows.under self other false
  refine Follows.bind (follows.under self other false) fun newRegex => ?_
  cases newRegex with
  | some newRegex => exact Follows.pure rfl
  | none => exact follows.under other self true

end Step

omit closed in
theorem underMatch_onto {h h' : Heap} (onto : Onto k held h h') {self other : Ref}
    {covers : Bool} (ran : underMatch self other h = some covers) :
    underMatch (k.up self) (k.up other) h' = some covers := by
  obtain ⟨a, hereA, ran⟩ := Option.bind_eq_some_iff.mp ran
  obtain ⟨b, hereB, ran⟩ := Option.bind_eq_some_iff.mp ran
  unfold underMatch
  rw [onto.node? hereA, onto.node? hereB]
  have anyMoved : ∀ (item : RegexRangeItem) (ranges : List RegexRangeItem),
      (ranges.map (RegexRangeItem.moved k.items)).any item.within = ranges.any item.within := by
    intro item ranges
    rw [List.any_map]
    rfl
  cases a with
  | atom leaf =>
      cases leaf with
      | regexDot =>
          cases b with
          | atom other' => cases other' <;> exact ran
          | _ => exact ran
      | regexRange container ranges exclude =>
          cases b with
          | atom other' =>
              cases other' with
              | regexString text nonempty =>
                  cases exclude with
                  | true => exact ran
                  | false =>
                      rcases text with _ | ⟨char, _ | ⟨next, text⟩⟩
                      · exact ran
                      · exact (congrArg some (anyMoved _ ranges)).trans ran
                      · exact ran
              | regexRange container branges bexclude =>
                  have both : (if exclude = bexclude then
                        some ((branges.map (RegexRangeItem.moved k.items)).all fun itemb =>
                          (ranges.map (RegexRangeItem.moved k.items)).any itemb.within)
                      else some false) =
                      if exclude = bexclude then
                        some (branges.all fun itemb => ranges.any itemb.within)
                      else some false := by
                    simp only [anyMoved, List.all_map]
                    rfl
                  cases exclude <;> exact both.trans ran
              | _ => cases exclude <;> exact ran
          | _ => cases exclude <;> exact ran
      | _ => exact ran
  | _ => exact ran

omit closed in
theorem orEach_end (fuel index : Nat) (self other : Ref) (reverse : Bool) :
    orEach (fuel + 1) [] index self other reverse = fun h =>
      h.content? self >>= fun content =>
        some (h.new (.regexOr (if reverse then other :: content else content ++ [other]))) := by
  funext h
  rewrite [orEach]
  cases reverse <;> rfl

theorem or_follows (fuel : Nat) {more : Nat} (enough : fuel ≤ more) :
    OrFollows k held fuel more := by
  induction fuel generalizing more with
  | zero =>
      refine ⟨fun self other reverse h h' _ value after ran => ?_,
        fun self other reverse h h' _ value after ran => ?_,
        fun total items h h' _ value after ran => ?_,
        fun content index self other reverse h h' _ value after ran => ?_,
        fun self other h h' _ value after ran => ?_,
        fun self other h h' _ value after ran => ?_⟩
      · rw [underOr] at ran
        cases ran
      · rw [andOr] at ran
        cases ran
      · rw [orItems] at ran
        cases ran
      · rw [orEach] at ran
        cases ran
      · rw [or_] at ran
        cases ran
      · rw [dunderOr] at ran
        cases ran
  | succ fuel induction =>
      obtain ⟨more, rfl⟩ : ∃ less, more = less + 1 := ⟨more - 1, by omega⟩
      have enough := Nat.le_of_succ_le_succ enough
      have follows := induction enough
      refine ⟨fun self other reverse => ?_, fun self other reverse => ?_, fun total items => ?_,
        fun content index self other reverse => ?_, fun self other => ?_, fun self other => ?_⟩
      · rw [underOr_step, underOr_step]
        intro h h' onto
        refine Follows.readAt (fun h h' onto a here => onto.node? here) onto fun a hereA => ?_
        refine Follows.readAt (fun h h' onto b here => onto.node? here) onto fun b hereB => ?_
        exact orNodes_follows closed enough follows onto reverse hereA hereB
      · rw [funext (andOr_step fuel self other reverse),
          funext (andOr_step more (k.up self) (k.up other) reverse)]
        cases reverse with
        | false => exact andOrBody_follows closed enough follows self other
        | true => exact andOrBody_follows closed enough follows other self
      · cases items with
        | nil =>
            rw [funext (Tree.orItems_nil fuel total), List.map_nil,
              funext (Tree.orItems_nil more (k.up total))]
            exact Follows.pure rfl
        | cons item items =>
            rw [funext (Tree.orItems_cons fuel total item items), List.map_cons,
              funext (Tree.orItems_cons more (k.up total) (k.up item) (items.map k.up))]
            exact Follows.bind (follows.dunder total item) fun total => follows.items total items
      · cases content with
        | nil =>
            rw [orEach_end, List.map_nil, orEach_end]
            refine Follows.read (fun h h' onto content here => onto.content? here)
              fun content => ?_
            refine follows_plain closed (by simp [Node.class]) ?_
            cases reverse <;> simp [Heap.upNode]
        | cons item rest =>
            rw [funext fun h => Tree.orEach_cons item rest index self other reverse h fuel,
              List.map_cons,
              funext fun h => Tree.orEach_cons (k.up item) (rest.map k.up) index (k.up self)
                (k.up other)
                reverse h more]
            refine Follows.bind (follows.or_ item other) fun newItem => ?_
            cases newItem with
            | none => exact follows.each rest (index + 1) self other reverse
            | some newItem =>
                refine Follows.read (fun h h' onto content here => onto.content? here)
                  fun content => ?_
                exact follows_plain closed (by simp [Node.class]) (by
                  simp [Heap.upNode, List.map_take, List.map_drop])
      · rw [funext (or_step fuel self other), funext (or_step more (k.up self) (k.up other))]
        refine Follows.read (fun h h' onto same ran => show _ = some (id same) from
          dunderEq_onto onto enough ran) fun same => ?_
        refine Follows.ite Iff.rfl (fun _ => Follows.pure rfl) fun _ => ?_
        refine Follows.read (fun h h' onto covers ran => show _ = some (id covers) from
          underMatch_onto onto ran) fun covers => ?_
        refine Follows.ite Iff.rfl (fun _ => Follows.pure rfl) fun _ => ?_
        refine Follows.read (fun h h' onto covered ran => show _ = some (id covered) from
          underMatch_onto onto ran) fun covered => ?_
        refine Follows.ite Iff.rfl (fun _ => Follows.pure rfl) fun _ => ?_
        exact orByClass_follows follows self other
      · rw [funext (dunderOr_step fuel self other), funext (dunderOr_step more (k.up self)
          (k.up other))]
        refine Follows.bind (follows.or_ self other) fun newRegex => ?_
        cases newRegex with
        | some newRegex => exact Follows.pure rfl
        | none => exact regexOr_follows closed enough [self, other]

end Or

end Segvault.HachoirRegex
