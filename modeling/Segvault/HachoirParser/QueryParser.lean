import Mathlib.Data.List.Nodup
import Mathlib.Data.List.Perm.Subperm

namespace Segvault.HachoirParser

/-! QueryParser of guess.py. Parsers are their classes, and a set is the list of its elements in
the order in which it is run through. -/

variable {P S α : Type}

inductive TagValue (α : Type)
  | text (characters : List Char)
  | other (value : α)
  deriving DecidableEq

inductive Tag (P α : Type)
  | none
  | filter (accepts : P → Bool)
  | ofClass (parser : P)
  | args (values : List (String × α))
  | named (name : String) (value : Option (TagValue α))

structure ParserList (P α : Type) where
  parsers : List P
  nodup : parsers.Nodup
  bytag : String → List (TagValue α × List P)

/-- How a call ends: an error is one of HACHOIR_ERRORS or it is not. -/
inductive Call (β : Type)
  | returns (value : β)
  | hachoirError
  | otherError

/-- What the parsers do with a stream. -/
structure World (P S α : Type) where
  lower : List Char → List Char
  init : P → S → Call Unit
  -- no KeyError
  minSize : P → Option Nat
  sizeGe : S → Nat → Bool
  validate : P → S → Call Bool
  setAttribute : P → S → String → α → Call Unit

/-- A stream, and the class of the parser that `_cached_parser` still refers to. -/
structure Stream (P S : Type) where
  data : S
  cached : Option P

inductive Error
  | attributeError
  | nameError
  /-- "cannot create weak reference to 'NoneType' object" -/
  | typeError
  /-- an error that a parser raises and that is not caught -/
  | raised
  deriving DecidableEq, Repr

structure Query (P α : Type) where
  validate : Bool
  useFallback : Bool
  parserArgs : List (String × α)
  fallback : Option Bool
  -- self.parsers while the tags are read, and after it
  set : List P
  parsers : List P

section

variable [DecidableEq P] [DecidableEq α] (db : ParserList P α) (world : World P S α)

def basename (path : List Char) : List Char :=
  (path.reverse.takeWhile (· ≠ '/')).reverse

def translate (name : String) (value : Option (TagValue α)) :
    Except Error (String × Option (TagValue α)) :=
  if name = "filename" then
    match value with
    | some (.text path) =>
        let filename := (basename path).splitOn '.'
        .ok ("file_ext", some (.text (if filename.length ≤ 1 then []
          else world.lower (filename.getLast?.getD []))))
    | _ => .error .attributeError
  else .ok (name, value)

/-- `values`, one after the other. -/
def tagged (name : String) (value : Option (TagValue α)) : List P :=
  let byname := db.bytag name
  match value with
  | none => (byname.map Prod.snd).flatten
  | some value => (byname.lookup value).getD []

def takeFrom (state : List P × List P) (parser : P) : List P × List P :=
  if parser ∈ state.1 then (state.1.erase parser, state.2 ++ [parser]) else state

def getByTag (query : Query P α) : Tag P α → Except Error (List P × Query P α)
  | .none => .ok ([], { query with set := [] })
  | .filter accepts =>
      .ok (query.set.filter accepts, { query with set := query.set.filter (¬ accepts ·) })
  | .ofClass parser => .ok ([parser], { query with validate := false })
  | .args values => .ok ([], { query with parserArgs := values })
  | .named name value =>
      match translate world name value with
      | .error error => .error error
      | .ok (name, value) =>
          -- values is an iterator or a tuple with one list, and neither is false
          let validate := query.validate && name != "id"
          let taken := (tagged db name value).foldl takeFrom (query.set, [])
          .ok (taken.2, { query with set := taken.1, validate := validate })

def readTags : List (Tag P α) → List P → Query P α → Except Error (List P × Query P α)
  | [], parsers, query => .ok (parsers, query)
  | tag :: tags, parsers, query =>
      if query.set = [] then .ok (parsers, query)
      else
        match getByTag db world query tag with
        | .error error => .error error
        | .ok (more, query) =>
            let parsers := parsers ++ more
            let fallback := query.fallback.getD (parsers.length == 1)
            readTags tags parsers { query with fallback := some fallback }

/-- QueryParser.__init__ -/
def queryParser (tags : List (Tag P α)) : Except Error (Query P α) :=
  match readTags db world tags [] ⟨true, false, [], none, db.parsers, []⟩ with
  | .error error => .error error
  | .ok (parsers, query) => .ok { query with parsers := parsers ++ query.set }

end

inductive Attempt
  | built
  | invalid
  | skipped
  | raised
  deriving DecidableEq, Repr

namespace World

variable (world : World P S α)

/-- HachoirParser.__init__ -/
def construct (parser : P) (stream : S) (validate : Bool) : Attempt :=
  match world.init parser stream with
  | .hachoirError => .skipped
  | .otherError => .raised
  | .returns _ =>
      if validate then
        match world.minSize parser with
        | none => .skipped
        | some bits =>
            if world.sizeGe stream bits then
              match world.validate parser stream with
              | .returns true => .built
              | .returns false => .invalid
              | .hachoirError => .skipped
              | .otherError => .raised
            else .invalid
      else .built

def setArgs (parser : P) (stream : S) : List (String × α) → Attempt
  | [] => .built
  | (key, value) :: args =>
      match world.setAttribute parser stream key value with
      | .returns _ => setArgs parser stream args
      | .hachoirError => .skipped
      | .otherError => .raised

/-- The try block of doparse. -/
def attempt (validate : Bool) (args : List (String × α)) (stream : S) (parser : P) : Attempt :=
  match world.construct parser stream validate with
  | .built => world.setArgs parser stream args
  | other => other

end World

structure Guess (P : Type) where
  tried : List P
  result : Except Error (Option P)
  cached : Option P

namespace Query

variable (world : World P S α) (query : Query P α)

def tryParsers (stream : S) : List P → Bool → Option P → List P × Except Error (Option P)
  | [], _, fb =>
      match query.useFallback, fb with
      | true, some parser =>
          match world.construct parser stream false with
          | .built => ([parser], .ok (some parser))
          | _ => ([parser], .error .raised)
      | _, _ => ([], .ok none)
  | parser :: parsers, fallback, fb =>
      match world.attempt query.validate query.parserArgs stream parser with
      | .built => ([parser], .ok (some parser))
      | .raised => ([parser], .error .raised)
      | .invalid =>
          let fb := if fallback && query.fallback == some true then some parser else fb
          let later := tryParsers stream parsers false fb
          (parser :: later.1, later.2)
      | .skipped =>
          let later := tryParsers stream parsers false fb
          (parser :: later.1, later.2)

def doparse (stream : S) (fallback : Bool) : List P × Except Error (Option P) :=
  query.tryParsers world stream query.parsers fallback none

def parseAnew (stream : Stream P S) (fallback : Bool) : Guess P :=
  match query.doparse world stream.data fallback with
  | (tried, .error error) => ⟨tried, .error error, stream.cached⟩
  -- weakref.ref(None)
  | (tried, .ok none) => ⟨tried, .error .typeError, stream.cached⟩
  | (tried, .ok (some parser)) => ⟨tried, .ok (some parser), some parser⟩

def parse [DecidableEq P] (stream : Stream P S) (fallback : Bool) : Guess P :=
  match stream.cached with
  | some parser =>
      if parser ∈ query.parsers then ⟨[], .ok (some parser), stream.cached⟩
      -- there is no fb here
      else if query.useFallback then ⟨[], .error .nameError, stream.cached⟩
      else query.parseAnew world stream fallback
  | none => query.parseAnew world stream fallback

end Query

/-- `QueryParser(tags).parse(stream, fallback)` -/
def guess [DecidableEq P] [DecidableEq α] (db : ParserList P α) (world : World P S α)
    (tags : List (Tag P α)) (stream : Stream P S) (fallback : Bool) : Guess P :=
  match queryParser db world tags with
  | .error error => ⟨[], .error error, stream.cached⟩
  | .ok query => query.parse world stream fallback

/-! The parsers that the tags select, in their order, and what the tags ask for. -/

section

variable [DecidableEq P] [DecidableEq α] (db : ParserList P α) (world : World P S α)

/-- The parsers that a tag selects from those left, and the ones it leaves. -/
def choose (rest : List P) : Tag P α → List P × List P
  | .none => ([], [])
  | .filter accepts => (rest.filter accepts, rest.filter (¬ accepts ·))
  | .ofClass parser => ([parser], rest)
  | .args _ => ([], rest)
  | .named name value =>
      match translate world name value with
      | .error _ => ([], rest)
      | .ok (name, value) =>
          let taken := (tagged db name value).foldl takeFrom (rest, [])
          (taken.2, taken.1)

/-- The order given by the tags, followed by the parsers left. -/
def order (rest : List P) : List (Tag P α) → List P
  | [] => rest
  | tag :: tags =>
      if rest = [] then []
      else (choose db world rest tag).1 ++ order (choose db world rest tag).2 tags

/-- The tags up to the one that takes the last parser. -/
def tagsRead (rest : List P) : List (Tag P α) → List (Tag P α)
  | [] => []
  | tag :: tags =>
      if rest = [] then [] else tag :: tagsRead (choose db world rest tag).2 tags

end

/-- A file name is a string. -/
def Tag.Readable (tag : Tag P α) : Prop :=
  ∀ value, tag = .named "filename" value → ∃ path, value = some (.text path)

/-- Tags that switch the validation off. -/
def Tag.Trusts : Tag P α → Prop
  | .ofClass _ => True
  | .named name _ => name = "id"
  | _ => False

def lastArgs (tags : List (Tag P α)) : List (String × α) → List (String × α) :=
  tags.foldl fun args tag =>
    match tag with
    | .args values => values
    | _ => args

instance : DecidablePred (Tag.Trusts : Tag P α → Prop)
  | .none | .filter _ | .args _ => isFalse id
  | .ofClass _ => isTrue trivial
  | .named name _ => inferInstanceAs (Decidable (name = "id"))

section

variable [DecidableEq P] [DecidableEq α] (db : ParserList P α) (world : World P S α)

/-- One tag, as the query reads it. -/
theorem getByTag_eq (query : Query P α) {tag : Tag P α} (readable : tag.Readable) :
    ∃ query', getByTag db world query tag = .ok ((choose db world query.set tag).1, query') ∧
      query'.set = (choose db world query.set tag).2 ∧
      query'.validate = (query.validate && !decide tag.Trusts) ∧
      query'.parserArgs = lastArgs [tag] query.parserArgs ∧
      query'.useFallback = query.useFallback := by
  cases tag with
  | none => exact ⟨_, rfl, rfl, (Bool.and_true _).symm, rfl, rfl⟩
  | filter accepts => exact ⟨_, rfl, rfl, (Bool.and_true _).symm, rfl, rfl⟩
  | ofClass parser => exact ⟨_, rfl, rfl, (Bool.and_false _).symm, rfl, rfl⟩
  | args values => exact ⟨_, rfl, rfl, (Bool.and_true _).symm, rfl, rfl⟩
  | named name value =>
      rw [getByTag, choose]
      by_cases isFile : name = "filename"
      · subst isFile
        obtain ⟨path, rfl⟩ := readable value rfl
        exact ⟨_, rfl, rfl, rfl, rfl, rfl⟩
      · have same : translate world name value = .ok (name, value) := if_neg isFile
        rw [same]
        exact ⟨_, rfl, rfl, rfl, rfl, rfl⟩

theorem getByTag_error (query : Query P α) {tag : Tag P α} (unreadable : ¬ tag.Readable) :
    getByTag db world query tag = .error .attributeError := by
  cases tag with
  | named name value =>
      by_cases isFile : name = "filename"
      · subst isFile
        cases value with
        | none => rfl
        | some value =>
            cases value with
            | text path =>
                refine absurd (fun value same => ?_) unreadable
                cases same
                exact ⟨path, rfl⟩
            | other value => rfl
      · refine absurd (fun value same => ?_) unreadable
        cases same
        exact absurd rfl isFile
  | none => exact absurd (fun value same => by cases same) unreadable
  | filter accepts => exact absurd (fun value same => by cases same) unreadable
  | ofClass parser => exact absurd (fun value same => by cases same) unreadable
  | args values => exact absurd (fun value same => by cases same) unreadable

theorem readTags_eq (tags : List (Tag P α)) (parsers : List P) (query : Query P α)
    (readable : ∀ tag ∈ tagsRead db world query.set tags, tag.Readable) :
    ∃ parsers' query', readTags db world tags parsers query = .ok (parsers', query') ∧
      parsers' ++ query'.set = parsers ++ order db world query.set tags ∧
      query'.validate = (query.validate && !decide (∃ tag ∈ tagsRead db world query.set tags,
        tag.Trusts)) ∧
      query'.parserArgs = lastArgs (tagsRead db world query.set tags) query.parserArgs ∧
      query'.useFallback = query.useFallback := by
  induction tags generalizing parsers query with
  | nil => exact ⟨parsers, query, rfl, rfl, by simp [tagsRead], rfl, rfl⟩
  | cons tag tags induction =>
      rw [readTags, order]
      rw [tagsRead] at readable ⊢
      by_cases empty : query.set = []
      · rw [if_pos empty, if_pos empty, if_pos empty]
        exact ⟨parsers, query, rfl, by rw [empty], by simp, rfl, rfl⟩
      · rw [if_neg empty] at readable
        rw [if_neg empty, if_neg empty, if_neg empty]
        obtain ⟨next, reads, set, validate, args, useFallback⟩ :=
          getByTag_eq db world query (readable tag List.mem_cons_self)
        rw [reads, ← set]
        rw [← set] at readable
        obtain ⟨parsers', query', readsOn, all, validate', args', useFallback'⟩ := induction
          (parsers ++ (choose db world query.set tag).1)
          { next with fallback := some (next.fallback.getD
              ((parsers ++ (choose db world query.set tag).1).length == 1)) }
          (fun tag member => readable tag (List.mem_cons_of_mem _ member))
        refine ⟨parsers', query', readsOn, ?_, ?_, ?_, useFallback'.trans useFallback⟩
        · rw [all, List.append_assoc]
        · rw [validate', validate]
          simp [Bool.and_assoc]
        · rw [args', args]
          rfl

theorem readTags_error (tags : List (Tag P α)) (parsers : List P) (query : Query P α)
    (unreadable : ∃ tag ∈ tagsRead db world query.set tags, ¬ tag.Readable) :
    readTags db world tags parsers query = .error .attributeError := by
  induction tags generalizing parsers query with
  | nil =>
      obtain ⟨tag, member, -⟩ := unreadable
      cases member
  | cons tag tags induction =>
      rw [readTags]
      rw [tagsRead] at unreadable
      by_cases empty : query.set = []
      · rw [if_pos empty] at unreadable
        obtain ⟨other, member, -⟩ := unreadable
        cases member
      · rw [if_neg empty] at unreadable ⊢
        by_cases readable : tag.Readable
        · obtain ⟨next, reads, set, -⟩ := getByTag_eq db world query readable
          rw [reads]
          obtain ⟨other, member, fails⟩ := unreadable
          rcases List.mem_cons.mp member with rfl | later
          · exact absurd readable fails
          · rw [← set] at later
            exact induction _ _ ⟨other, later, fails⟩
        · rw [getByTag_error db world query readable]

theorem queryParser_eq (tags : List (Tag P α))
    (readable : ∀ tag ∈ tagsRead db world db.parsers tags, tag.Readable) :
    ∃ query, queryParser db world tags = .ok query ∧
      query.parsers = order db world db.parsers tags ∧
      query.validate = !decide (∃ tag ∈ tagsRead db world db.parsers tags, tag.Trusts) ∧
      query.parserArgs = lastArgs (tagsRead db world db.parsers tags) [] ∧
      query.useFallback = false := by
  obtain ⟨parsers, query, reads, all, validate, args, useFallback⟩ :=
    readTags_eq db world tags [] ⟨true, false, [], none, db.parsers, []⟩ readable
  rw [queryParser, reads]
  exact ⟨_, rfl, all, validate, args, useFallback⟩

theorem queryParser_error (tags : List (Tag P α))
    (unreadable : ∃ tag ∈ tagsRead db world db.parsers tags, ¬ tag.Readable) :
    queryParser db world tags = .error .attributeError := by
  rw [queryParser, readTags_error db world tags [] _ unreadable]

end

/-! The search. -/

def Attempt.Rejects (attempt : Attempt) : Prop :=
  attempt = .invalid ∨ attempt = .skipped

/-- A search ends with the first parser that does not reject the stream. -/
inductive Searches (attempt : P → Attempt) :
    List P → List P × Except Error (Option P) → Prop
  | exhausted {parsers : List P} (rejected : ∀ parser ∈ parsers, (attempt parser).Rejects) :
      Searches attempt parsers (parsers, .ok none)
  | built {front back : List P} {parser : P}
      (rejected : ∀ other ∈ front, (attempt other).Rejects) (built : attempt parser = .built) :
      Searches attempt (front ++ parser :: back) (front ++ [parser], .ok (some parser))
  | raised {front back : List P} {parser : P}
      (rejected : ∀ other ∈ front, (attempt other).Rejects) (raised : attempt parser = .raised) :
      Searches attempt (front ++ parser :: back) (front ++ [parser], .error .raised)

theorem Searches.cons {attempt : P → Attempt} {parsers : List P}
    {result : List P × Except Error (Option P)} {parser : P}
    (rejects : (attempt parser).Rejects) (searches : Searches attempt parsers result) :
    Searches attempt (parser :: parsers) (parser :: result.1, result.2) := by
  cases searches with
  | exhausted rejected => exact .exhausted (List.forall_mem_cons.mpr ⟨rejects, rejected⟩)
  | @built front back found rejected built =>
      exact @Searches.built _ _ (parser :: front) _ _
        (List.forall_mem_cons.mpr ⟨rejects, rejected⟩) built
  | @raised front back found rejected raised =>
      exact @Searches.raised _ _ (parser :: front) _ _
        (List.forall_mem_cons.mpr ⟨rejects, rejected⟩) raised

theorem Query.tryParsers_searches (world : World P S α) (query : Query P α) (stream : S)
    (noFallback : query.useFallback = false) (parsers : List P) (fallback : Bool)
    (fb : Option P) :
    Searches (world.attempt query.validate query.parserArgs stream) parsers
      (query.tryParsers world stream parsers fallback fb) := by
  induction parsers generalizing fallback fb with
  | nil =>
      unfold tryParsers
      rw [noFallback]
      exact .exhausted fun _ absent => (List.not_mem_nil absent).elim
  | cons parser parsers induction =>
      rw [tryParsers]
      cases attempt : world.attempt query.validate query.parserArgs stream parser with
      | built =>
          exact @Searches.built _ _ [] _ _ (fun _ absent => (List.not_mem_nil absent).elim) attempt
      | raised =>
          exact @Searches.raised _ _ [] _ _ (fun _ absent => (List.not_mem_nil absent).elim)
            attempt
      | invalid => exact .cons (.inl attempt) (induction false _)
      | skipped => exact .cons (.inr attempt) (induction false fb)

theorem World.attempt_validated {world : World P S α} {args : List (String × α)} {stream : S}
    {parser : P} (built : world.attempt true args stream parser = .built) :
    world.validate parser stream = .returns true := by
  rw [World.attempt, World.construct] at built
  cases init : world.init parser stream with
  | hachoirError => simp [init] at built
  | otherError => simp [init] at built
  | returns _ =>
      cases size : world.minSize parser with
      | none => simp [init, size] at built
      | some bits =>
          by_cases enough : world.sizeGe stream bits = true
          · cases valid : world.validate parser stream with
            | returns value =>
                cases value with
                | true => rfl
                | false => simp [init, size, enough, valid] at built
            | hachoirError => simp [init, size, enough, valid] at built
            | otherError => simp [init, size, enough, valid] at built
          · simp [init, size, enough] at built

section

variable [DecidableEq P] [DecidableEq α] (db : ParserList P α) (world : World P S α)

theorem takeFrom_perm (state : List P × List P) (parser : P) :
    (takeFrom state parser).2 ++ (takeFrom state parser).1 |>.Perm (state.2 ++ state.1) := by
  rw [takeFrom]
  split
  · rename_i member
    rw [List.append_assoc]
    exact (List.perm_cons_erase member).symm.append_left state.2
  · exact List.Perm.refl _

theorem foldl_takeFrom_perm (parsers : List P) (state : List P × List P) :
    (parsers.foldl takeFrom state).2 ++ (parsers.foldl takeFrom state).1 |>.Perm
      (state.2 ++ state.1) := by
  induction parsers generalizing state with
  | nil => exact List.Perm.refl _
  | cons parser parsers induction =>
      exact (induction (takeFrom state parser)).trans (takeFrom_perm state parser)

/-- A tag without a class takes its parsers out of the set. -/
theorem choose_subperm (rest : List P) {tag : Tag P α} (noTrust : ¬ tag.Trusts) :
    (choose db world rest tag).1 ++ (choose db world rest tag).2 |>.Subperm rest := by
  cases tag with
  | none => exact List.nil_subperm
  | filter accepts =>
      have negated : (fun parser => decide ¬ accepts parser = true) =
          fun parser => !accepts parser := by
        funext parser
        cases accepts parser <;> rfl
      rw [choose, negated]
      exact (List.filter_append_perm accepts rest).subperm
  | ofClass parser => exact absurd trivial noTrust
  | args values => exact List.Subperm.refl _
  | named name value =>
      rw [choose]
      cases translate world name value with
      | error error => exact List.Subperm.refl _
      | ok tag => exact (foldl_takeFrom_perm (tagged db tag.1 tag.2) (rest, [])).subperm

theorem order_subperm (rest : List P) (tags : List (Tag P α))
    (noTrust : ∀ tag ∈ tagsRead db world rest tags, ¬ tag.Trusts) :
    (order db world rest tags).Subperm rest := by
  induction tags generalizing rest with
  | nil => exact List.Subperm.refl _
  | cons tag tags induction =>
      rw [order]
      rw [tagsRead] at noTrust
      by_cases empty : rest = []
      · rw [if_pos empty]
        exact List.nil_subperm
      · rw [if_neg empty] at noTrust ⊢
        have later := induction _ fun other member =>
          noTrust other (List.mem_cons_of_mem _ member)
        exact ((List.subperm_append_left _).mpr later).trans
          (choose_subperm db world rest (noTrust tag List.mem_cons_self))

theorem order_nodup (tags : List (Tag P α))
    (noTrust : ∀ tag ∈ tagsRead db world db.parsers tags, ¬ tag.Trusts) :
    (order db world db.parsers tags).Nodup := by
  obtain ⟨sorted, same, sublist⟩ := order_subperm db world db.parsers tags noTrust
  exact same.nodup_iff.mp (sublist.nodup db.nodup)

end

/-! When the guess is right. -/

section

variable [DecidableEq P] [DecidableEq α] (db : ParserList P α) (world : World P S α)
  (tags : List (Tag P α)) (stream : Stream P S)

/-- The parser accepts the stream in validate(), or the tags name it. -/
def Vouched (parser : P) : Prop :=
  world.validate parser stream.data = .returns true ∨ .ofClass parser ∈ tags ∨
    ∃ identifier, .named "id" (some identifier) ∈ tags ∧
      parser ∈ tagged db "id" (some identifier)

/-- Every parser is tried at most once, in the order of the tags; no error comes from the tags or
because all of them reject the stream, and the parser that is returned is vouched for. -/
def Right (guess : Guess P) : Prop :=
  guess.tried.Nodup ∧ guess.tried <+: order db world db.parsers tags ∧
    match guess.result with
    | .error error => error = .raised
    | .ok none => guess.tried = order db world db.parsers tags
    | .ok (some parser) => Vouched db world tags stream parser

def Trusted : Prop :=
  ∃ tag ∈ tagsRead db world db.parsers tags, tag.Trusts

instance : Decidable (Trusted db world tags) :=
  inferInstanceAs (Decidable (∃ tag ∈ _, _))

def attemptOf (parser : P) : Attempt :=
  world.attempt (!decide (Trusted db world tags))
    (lastArgs (tagsRead db world db.parsers tags) []) stream.data parser

def rejects (parser : P) : Bool :=
  attemptOf db world tags stream parser == .invalid ||
    attemptOf db world tags stream parser == .skipped

/-- One of the parsers does not reject the stream. If a tag has switched the validation off, the
first of them is vouched for, and none comes twice before it. -/
def Finds : Prop :=
  ∃ parser, (order db world db.parsers tags).find? (!rejects db world tags stream ·) =
      some parser ∧
    (Trusted db world tags →
      ((order db world db.parsers tags).takeWhile (rejects db world tags stream)).Nodup ∧
      (attemptOf db world tags stream parser = .raised ∨
        Vouched db world tags stream parser))

variable {db world tags stream}

theorem rejects_iff {parser : P} :
    rejects db world tags stream parser = true ↔
      (attemptOf db world tags stream parser).Rejects := by
  simp [rejects, Attempt.Rejects]

theorem finds_iff {front back : List P} {parser : P}
    (split : order db world db.parsers tags = front ++ parser :: back)
    (rejected : ∀ other ∈ front, (attemptOf db world tags stream other).Rejects)
    (accepts : ¬ (attemptOf db world tags stream parser).Rejects) :
    Finds db world tags stream ↔ (Trusted db world tags → front.Nodup ∧
      (attemptOf db world tags stream parser = .raised ∨
        Vouched db world tags stream parser)) := by
  have before : ∀ other ∈ front, rejects db world tags stream other = true :=
    fun other member => rejects_iff.mpr (rejected other member)
  have here : rejects db world tags stream parser = false :=
    Bool.eq_false_iff.mpr fun wrong => accepts (rejects_iff.mp wrong)
  have found : (order db world db.parsers tags).find? (!rejects db world tags stream ·) =
      some parser := by
    have none : front.find? (!rejects db world tags stream ·) = none :=
      List.find?_eq_none.mpr fun other member => by simp [before other member]
    rw [split, List.find?_append, none, Option.none_or, List.find?_cons, here]
    rfl
  have skipped : (order db world db.parsers tags).takeWhile (rejects db world tags stream) =
      front := by
    rw [split, List.takeWhile_append_of_pos before, List.takeWhile_cons, here]
    exact List.append_nil front
  rw [Finds, skipped, found]
  constructor
  · rintro ⟨other, same, sound⟩
    cases same
    exact sound
  · exact fun sound => ⟨parser, rfl, sound⟩

theorem tried_nodup {front : List P} {parser : P}
    (rejected : ∀ other ∈ front, (attemptOf db world tags stream other).Rejects)
    (accepts : ¬ (attemptOf db world tags stream parser).Rejects) :
    (front ++ [parser]).Nodup ↔ front.Nodup := by
  rw [← List.concat_eq_append, List.nodup_concat]
  exact and_iff_right fun member => accepts (rejected parser member)

/-- Without tags that switch it off, every parser that is built has accepted the stream. -/
theorem vouched_of_built {parser : P} (noTrust : ¬ Trusted db world tags)
    (built : attemptOf db world tags stream parser = .built) :
    Vouched db world tags stream parser := by
  rw [attemptOf, decide_eq_false noTrust] at built
  exact .inl (World.attempt_validated built)

theorem parseAnew_right_iff {query : Query P α} (fallback : Bool)
    (parsers : query.parsers = order db world db.parsers tags)
    (validate : query.validate = !decide (Trusted db world tags))
    (args : query.parserArgs = lastArgs (tagsRead db world db.parsers tags) [])
    (noFallback : query.useFallback = false) :
    Right db world tags stream (query.parseAnew world stream fallback) ↔
      Finds db world tags stream := by
  have searches := query.tryParsers_searches world stream.data noFallback query.parsers fallback
    none
  have attempts : world.attempt query.validate query.parserArgs stream.data =
      attemptOf db world tags stream := by
    funext parser
    rw [attemptOf, validate, args]
  rw [attempts, parsers] at searches
  have unique : ¬ Trusted db world tags → (order db world db.parsers tags).Nodup := fun noTrust =>
    order_nodup db world tags fun tag member trusts => noTrust ⟨tag, member, trusts⟩
  rw [Query.parseAnew, Query.doparse, parsers]
  generalize query.tryParsers world stream.data (order db world db.parsers tags) fallback none =
    result at searches ⊢
  generalize listed : order db world db.parsers tags = all at searches
  cases searches with
  | exhausted rejected =>
      subst listed
      constructor
      · rintro ⟨-, -, wrong⟩
        cases wrong
      · rintro ⟨parser, found, -⟩
        have member := List.mem_of_find?_eq_some found
        have accepted := List.find?_some found
        rw [rejects_iff.mpr (rejected parser member)] at accepted
        cases accepted
  | @built front back parser rejected built =>
      have accepts : ¬ (attemptOf db world tags stream parser).Rejects := by
        rw [built]
        rintro (wrong | wrong) <;> cases wrong
      have starts : front ++ [parser] <+: order db world db.parsers tags :=
        ⟨back, by rw [listed, List.append_assoc]; rfl⟩
      rw [finds_iff listed rejected accepts]
      constructor
      · rintro ⟨nodup, -, vouched⟩ -
        exact ⟨(tried_nodup rejected accepts).mp nodup, .inr vouched⟩
      · intro sound
        by_cases trusted : Trusted db world tags
        · obtain ⟨nodup, raised | vouched⟩ := sound trusted
          · rw [built] at raised
            cases raised
          · exact ⟨(tried_nodup rejected accepts).mpr nodup, starts, vouched⟩
        · exact ⟨starts.sublist.nodup (unique trusted), starts, vouched_of_built trusted built⟩
  | @raised front back parser rejected raised =>
      have accepts : ¬ (attemptOf db world tags stream parser).Rejects := by
        rw [raised]
        rintro (wrong | wrong) <;> cases wrong
      have starts : front ++ [parser] <+: order db world db.parsers tags :=
        ⟨back, by rw [listed, List.append_assoc]; rfl⟩
      rw [finds_iff listed rejected accepts]
      constructor
      · rintro ⟨nodup, -, -⟩ -
        exact ⟨(tried_nodup rejected accepts).mp nodup, .inl raised⟩
      · intro sound
        by_cases trusted : Trusted db world tags
        · exact ⟨(tried_nodup rejected accepts).mpr (sound trusted).1, starts, rfl⟩
        · exact ⟨starts.sublist.nodup (unique trusted), starts, rfl⟩

variable (db world tags stream)

theorem guess_right_iff (fallback : Bool) :
    Right db world tags stream (guess db world tags stream fallback) ↔
      (∀ tag ∈ tagsRead db world db.parsers tags, tag.Readable) ∧
      ((∃ parser ∈ stream.cached, parser ∈ order db world db.parsers tags ∧
          Vouched db world tags stream parser) ∨
        ((∀ parser ∈ stream.cached, parser ∉ order db world db.parsers tags) ∧
          Finds db world tags stream)) := by
  rw [guess]
  by_cases readable : ∀ tag ∈ tagsRead db world db.parsers tags, tag.Readable
  · obtain ⟨query, same, parsers, validate, args, noFallback⟩ :=
      queryParser_eq db world tags readable
    have anew := @parseAnew_right_iff P S α _ _ db world tags stream query fallback parsers
      validate args noFallback
    rw [same]
    dsimp only
    rw [and_iff_right readable, Query.parse]
    cases cached : stream.cached with
    | none => simpa using anew
    | some parser =>
        by_cases listed : parser ∈ order db world db.parsers tags
        · rw [parsers]
          simp only [listed, if_true]
          simp [Right, listed]
        · rw [parsers]
          simp only [listed, if_false, noFallback]
          simpa [listed] using anew
  · rw [queryParser_error db world tags (by simpa using readable)]
    constructor
    · rintro ⟨-, -, wrong⟩
      cases wrong
    · exact fun sound => absurd sound.1 readable

end

/-- No parser is left, and there is none to make a weak reference to. -/
theorem guess_not_right :
    ¬ ∀ (db : ParserList Nat Nat) (world : World Nat Nat Nat) (tags : List (Tag Nat Nat))
      (stream : Stream Nat Nat) (fallback : Bool),
      Right db world tags stream (guess db world tags stream fallback) := by
  intro right
  have wrong := right ⟨[0], List.nodup_singleton 0, fun _ => []⟩
    ⟨id, fun _ _ => .returns (), fun _ => some 0, fun _ _ => true, fun _ _ => .returns true,
      fun _ _ _ _ => .returns ()⟩ [.none] ⟨0, none⟩ true
  cases wrong.2.2

end Segvault.HachoirParser
