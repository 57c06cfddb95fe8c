import Segvault.HachoirRegex.Faults

namespace Segvault.HachoirRegex

open Logged Tree

/-! The parser ends unless an alternative of a group begins at the end of the text. -/

/-- A turn of parseOr that begins at the end of the text. -/
def Exhausted (text : List UInt8) (turn : Turn) : Prop :=
  turn.loop = .parseOr ∧ text.length ≤ turn.before

def Consumes (turn : Turn) : Prop :=
  turn.before < turn.after

/-! The turns that the loops log. -/

/-- Good turns are those of `_parse` and parseRange that consume, and those of parseOr, where
an alternative at `index` ends at `next`, as long as they are not bad. -/
structure TurnRules (text : List UInt8) (bad good : Turn → Prop) : Prop where
  turn : ∀ {loop : Loop} {before after : Nat}, loop ≠ .parseOr → before < after →
    good ⟨loop, before, after⟩
  alternative : ∀ {index next : Nat}, 1 ≤ index → (index < text.length → index ≤ next) →
    (index = text.length → next = 0) → (text.length < index → next = index) →
    next < text.length → ¬ bad ⟨.parseOr, index, next + 1⟩ →
    index ≤ next ∧ good ⟨.parseOr, index, next + 1⟩

theorem consumes_rules (text : List UInt8) : TurnRules text (Exhausted text) Consumes where
  turn _ forward := forward
  alternative _ forward _ _ _ left := by
    have inside := forward (Nat.not_le.mp fun past => left ⟨rfl, past⟩)
    exact ⟨inside, Nat.lt_succ_of_le inside⟩

theorem exhausted_rules (text : List UInt8) :
    TurnRules text (fun turn => ¬ Consumes turn) fun turn => ¬ Exhausted text turn where
  turn other _ := fun exhausted => other exhausted.1
  alternative := by
    intro index next positive _ atEnd past inside left
    have forward : index < next + 1 := not_not.mp left
    refine ⟨Nat.le_of_lt_succ forward, fun ⟨_, exhausted⟩ => ?_⟩
    dsimp only at exhausted
    obtain same | more := Nat.eq_or_lt_of_le exhausted
    · have zero := atEnd same.symm
      omega
    · have same := past more
      omega

section Turns

variable {text : List UInt8} {bad good : Turn → Prop} (rules : TurnRules text bad good)

theorem charAt_logs (index : Nat) :
    Logs bad good (charAt text index) fun _ => True := by
  unfold charAt
  split
  · exact Logs.pure trivial
  · exact Logs.raise _ _

include rules in
theorem enter_logs {loop : Loop} {before after : Nat} (other : loop ≠ .parseOr)
    (forward : before < after) :
    Logs bad good (Logged.enter ⟨loop, before, after⟩ : Parsing PUnit) fun _ => True :=
  (Logs.enter fun _ => rules.turn other forward).imp fun _ _ => trivial

include rules in
theorem rangeLoop_logs (fuel : Nat) (index : Nat)
    (charRange : List RegexRangeItem) :
    Logs bad good (rangeLoop fuel text index charRange) fun found => index ≤ found.2 := by
  induction fuel generalizing index charRange with
  | zero => exact Logs.starve _
  | succ fuel induction =>
      have next : ∀ (item : RegexRangeItem) {after : Nat}, index < after → Logs bad good
          (Logged.enter ⟨.parseRange, index, after⟩ >>= fun _ =>
            rangeLoop fuel text after (charRange ++ [item])) fun found => index ≤ found.2 := by
        intro item after forward
        refine Logs.bind (enter_logs rules (by decide) forward) fun _ _ => ?_
        exact (induction after (charRange ++ [item])).imp fun found later => by omega
      rw [rangeLoop]
      split_ifs
      · refine Logs.bind (charAt_logs (index + 1)) fun char _ => ?_
        exact Logs.bind (Logs.step _) fun item _ => next item (by omega)
      · exact Logs.pure (Nat.le_refl _)
      · refine Logs.bind (charAt_logs index) fun cmin _ => ?_
        refine Logs.bind (charAt_logs (index + 2)) fun cmax _ => ?_
        exact Logs.bind (Logs.tryStep _) fun item _ => next item (by omega)
      · refine Logs.bind (charAt_logs index) fun char _ => ?_
        exact Logs.bind (Logs.step _) fun item _ => next item (by omega)
      · exact Logs.pure (Nat.le_refl _)

theorem leadingBracket_logs (index : Nat) :
    Logs bad good (leadingBracket text index) fun found => index ≤ found.2 := by
  refine Logs.bind (charAt_logs index) fun char _ => ?_
  split_ifs
  · exact Logs.bind (Logs.step _) fun item _ => Logs.pure (Nat.le_add_right _ _)
  · exact Logs.pure (Nat.le_refl _)

theorem trailingDash_logs (index : Nat) (charRange : List RegexRangeItem) :
    Logs bad good (trailingDash text index charRange) fun found => index ≤ found.2 := by
  unfold trailingDash
  split_ifs
  · exact Logs.bind (Logs.step _) fun item _ => Logs.pure (Nat.le_add_right _ _)
  · exact Logs.pure (Nat.le_refl _)

include rules in
theorem parseRange_logs (fuel : Nat) (start : Nat) :
    Logs bad good (parseRange fuel text start) fun found => start < found.2 := by
  refine Logs.bind (charAt_logs start) fun first _ => ?_
  refine Logs.bind (leadingBracket_logs _) fun opened first => ?_
  refine Logs.bind (rangeLoop_logs rules fuel opened.2 opened.1) fun looped second => ?_
  refine Logs.bind (trailingDash_logs looped.2 looped.1) fun closed third => ?_
  obtain ⟨charRange, index⟩ := closed
  dsimp only
  split_ifs
  · exact Logs.raise _ _
  · refine Logs.bind (Logs.step _) fun regex _ => Logs.pure ?_
    have forward := first.trans (second.trans third)
    split at forward <;> dsimp only at forward ⊢ <;> omega

theorem parseRepeat_logs (start : Nat) :
    Logs bad good (parseRepeat text start) fun found => start < found.2.2 := by
  rw [parseRepeat_eq]
  cases found : repetition text start with
  | none => exact Logs.raise _ _
  | some found' => exact Logs.pure (repetition_bounds found).1

theorem escaped_logs (index : Nat) :
    Logs bad good (escaped text index) fun found => index < found.2 := by
  unfold escaped
  split_ifs
  · exact Logs.raise _ _
  refine Logs.bind (charAt_logs (index + 1)) fun char _ => ?_
  split_ifs
  · exact Logs.bind (Logs.step _) fun regex _ => Logs.pure (by dsimp only; omega)
  · exact Logs.bind (Logs.step _) fun regex _ => Logs.pure (by dsimp only; omega)
  · exact Logs.raise _ _

theorem addLast_logs (fuel : Nat) (regex : Ref) (last : Option Ref) :
    Logs bad good (addLast fuel regex last) fun _ => True := by
  cases last with
  | none => exact Logs.pure trivial
  | some last => exact Logs.step _

theorem orNext_logs (fuel : Nat) (regex : Option Ref) (newRegex : Ref) :
    Logs bad good (orNext fuel regex newRegex) fun _ => True := by
  cases regex with
  | none => exact Logs.pure trivial
  | some regex => exact Logs.step _

include rules in
theorem simpleCommand_logs (fuel : Nat) (index : Nat) (char : UInt8) (last : Option Ref) :
    Logs bad good (simpleCommand fuel text index char last) fun found => index < found.2.2 := by
  have repeated : ∀ (rmin : Nat) (rmax : Option Nat) {next : Nat}, index < next →
      Logs bad good (newRegexRepeat fuel last rmin rmax >>= fun newRegex =>
        (pure (newRegex, none, next) : Parsing (Ref × Option Ref × Nat)))
        fun found => index < found.2.2 :=
    fun rmin rmax next forward => Logs.bind (Logs.tryStep _) fun regex _ => Logs.pure forward
  unfold simpleCommand
  cases charToClass char with
  | some leaf => exact Logs.bind (Logs.step _) fun regex _ => Logs.pure (Nat.lt_succ_self _)
  | none =>
      cases charToRepeat char with
      | some bounds =>
          dsimp only
          split_ifs
          · exact Logs.raise _ _
          · exact repeated _ _ (Nat.lt_succ_self _)
      | none =>
          dsimp only
          split_ifs
          · exact Logs.bind (parseRange_logs rules fuel (index + 1)) fun found forward =>
              Logs.pure (Nat.lt_of_succ_lt forward)
          · exact Logs.bind (parseRepeat_logs (index + 1)) fun found forward =>
              repeated _ _ (Nat.lt_of_succ_lt forward)
          · exact Logs.bind (escaped_logs index) fun found forward => Logs.pure forward
          · exact Logs.raise _ _

/-- What the functions of the parser log, and where they go on. -/
structure ParseLogs (text : List UInt8) (bad good : Turn → Prop) (fuel : Nat) : Prop where
  underParse : ∀ start untilChars, Logs bad good (underParse fuel text start untilChars)
    fun found => (start < text.length → start ≤ found.2) ∧ (start = text.length → found.2 = 0) ∧
      (text.length < start → found.2 = start)
  parseLoop : ∀ index untilChars regex last, Logs bad good
    (parseLoop fuel text index untilChars regex last)
    fun found => index ≤ found.2.2 ∧ (text.length < index → found.2.2 = index)
  command : ∀ index char last, Logs bad good (command fuel text index char last)
    fun found => index < found.2.2
  parseOr : ∀ start, 1 ≤ start → Logs bad good (parseOr fuel text start)
    fun found => start < found.2
  orLoop : ∀ index regex, 1 ≤ index → Logs bad good (orLoop fuel text index regex)
    fun found => index ≤ found.2

include rules in
theorem parse_logs_all (fuel : Nat) : ParseLogs text bad good fuel := by
  induction fuel with
  | zero =>
      refine ⟨fun start untilChars => ?_, fun index untilChars regex last => ?_,
        fun index char last => ?_, fun start _ => ?_, fun index regex _ => ?_⟩
      · rw [underParse]
        exact Logs.starve _
      · rw [parseLoop]
        exact Logs.starve _
      · rw [command]
        exact Logs.starve _
      · rw [parseOr]
        exact Logs.starve _
      · rw [orLoop]
        exact Logs.starve _
  | succ fuel logs =>
      refine ⟨fun start untilChars => ?_, fun index untilChars regex last => ?_,
        fun index char last => ?_, fun start positive => ?_, fun index regex positive => ?_⟩
      · rw [underParse_step]
        refine Logs.bind (Logs.step _) fun regex _ => ?_
        split_ifs with atEnd
        · exact Logs.pure ⟨fun inside => by omega, fun _ => rfl, fun past => by omega⟩
        · refine Logs.bind (logs.parseLoop start untilChars regex none) fun found forward => ?_
          exact Logs.bind (addLast_logs fuel found.1 found.2.1) fun regex _ =>
            Logs.pure ⟨fun _ => forward.1, fun same => absurd same.symm atEnd, forward.2⟩
      · cases here : text[index]? with
        | none =>
            rw [parseLoop_end _ _ _ here]
            exact Logs.pure ⟨Nat.le_refl _, fun _ => rfl⟩
        | some char =>
            obtain ⟨inside, _⟩ := List.getElem?_eq_some_iff.mp here
            by_cases stops : char ∈ untilChars
            · rw [parseLoop_until _ _ _ here stops]
              exact Logs.pure ⟨Nat.le_refl _, fun _ => rfl⟩
            by_cases special : char ∈ regexCommandCharacters
            · rw [parseLoop_command _ _ _ here stops special]
              refine Logs.bind (logs.command index char last) fun found forward => ?_
              refine Logs.bind (addLast_logs fuel regex found.2.1) fun regex _ => ?_
              refine Logs.bind (enter_logs rules (by decide) forward) fun _ _ => ?_
              exact (logs.parseLoop found.2.2 untilChars regex (some found.1)).imp
                fun _ later => ⟨Nat.le_trans (Nat.le_of_lt forward) later.1, fun past => by omega⟩
            · rw [parseLoop_character _ _ _ here stops special]
              refine Logs.bind (addLast_logs fuel regex last) fun regex _ => ?_
              refine Logs.bind (Logs.step _) fun newRegex _ => ?_
              refine Logs.bind (enter_logs rules (by decide) (Nat.lt_succ_self _)) fun _ _ => ?_
              exact (logs.parseLoop (index + 1) untilChars regex (some newRegex)).imp
                fun _ later => ⟨Nat.le_of_succ_le later.1, fun past => by omega⟩
      · by_cases group : char = '('.toUInt8
        · subst group
          rw [command_group]
          exact Logs.bind (logs.parseOr (index + 1) (Nat.le_add_left _ _)) fun found forward =>
            Logs.pure (Nat.lt_of_succ_lt forward)
        · rw [command_simple _ _ _ group]
          exact simpleCommand_logs rules fuel index char last
      · have begins : start ≤ groupStart text start := by
          unfold groupStart
          split_ifs <;> omega
        rw [parseOr_step]
        refine Logs.bind (charAt_logs _) fun char _ => ?_
        split_ifs
        · exact Logs.raise _ _
        · exact Logs.bind (logs.orLoop _ none (positive.trans begins)) fun found forward =>
            Logs.pure (Nat.lt_succ_of_le (begins.trans forward))
      · rw [orLoop_step]
        refine Logs.bind (logs.underParse index _) fun found ends => ?_
        refine Logs.bind (orNext_logs fuel regex found.1) fun total _ => ?_
        by_cases missing : text.length ≤ found.2
        · simp only [if_pos missing]
          exact Logs.raise _ _
        simp only [if_neg missing]
        have rule := rules.alternative positive ends.1 ends.2.1 ends.2.2 (Nat.not_le.mp missing)
        refine Logs.bind ((Logs.enter fun left => (rule left).2).imp fun _ left => (rule left).1)
          fun _ forward => ?_
        split_ifs
        · exact Logs.pure forward
        · exact (logs.orLoop (found.2 + 1) (some total) (Nat.le_add_left _ _)).imp
            fun _ later => by omega

include rules in
theorem parse_logs (fuel : Nat) : Logs bad good (parse fuel text) fun _ => True := by
  refine Logs.bind ((parse_logs_all rules fuel).underParse 0 []) fun found _ => ?_
  obtain ⟨regex, index⟩ := found
  dsimp only
  split_ifs
  · exact Logs.pure trivial
  · exact Logs.raise _ _

end Turns

/-! How the functions end, by what is left of the text. -/

/-- The functions of the parser at an index, as long as no alternative begins at the end of
the text. -/
structure ParseEnds (text : List UInt8) (index : Nat) : Prop where
  underParse : ∀ {h : Heap} {untilChars : List UInt8}, index ≤ text.length →
    Ends (Exhausted text) (fun fuel => underParse fuel text index untilChars) h
      fun found h' => (index = text.length → found.2 = 0) ∧
        (index < text.length → index ≤ found.2) ∧ found.2 ≤ text.length ∧
        ∃ t : Tree, found.1 = t.ref ∧ Grown h [] [t] h'
  parseLoop : ∀ {hs h : Heap} {untilChars : List UInt8} {regex : Tree} {last : Option Tree},
    index ≤ text.length → Grown hs [] (regex :: last.toList) h →
    Ends (Exhausted text)
      (fun fuel => parseLoop fuel text index untilChars regex.ref (last.map ref)) h
      fun found h' => index ≤ found.2.2 ∧ found.2.2 ≤ text.length ∧
        ∃ (total : Tree) (rest : Option Tree), found.1 = total.ref ∧ found.2.1 = rest.map ref ∧
          Grown hs [] (total :: rest.toList) h'
  command : ∀ {hs h : Heap} {char : UInt8} {regex : Tree} {last : Option Tree},
    text[index]? = some char → Grown hs [] (regex :: last.toList) h →
    Ends (Exhausted text) (fun fuel => command fuel text index char (last.map ref)) h
      (Commanded text hs index regex)
  parseOr : ∀ {h : Heap}, Ends (Exhausted text) (fun fuel => parseOr fuel text index) h
    fun found h' => index < found.2 ∧ found.2 ≤ text.length ∧
      ∃ t : Tree, found.1 = t.ref ∧ Grown h [] [t] h'
  orLoop : ∀ {hs h : Heap} {regex : Option Tree}, index ≤ text.length →
    Grown hs [] regex.toList h →
    Ends (Exhausted text) (fun fuel => orLoop fuel text index (regex.map ref)) h
      fun found h' => index ≤ found.2 ∧ found.2 < text.length ∧
        ∃ t : Tree, found.1 = t.ref ∧ Grown hs [] [t] h'

section Ends

variable {text : List UInt8} {index : Nat}

theorem command_ends (later : ParseEnds text (index + 1)) {hs h : Heap} {char : UInt8}
    {regex : Tree} {last : Option Tree} (here : text[index]? = some char)
    (grown : Grown hs [] (regex :: last.toList) h) :
    Ends (Exhausted text) (fun fuel => command fuel text index char (last.map ref)) h
      (Commanded text hs index regex) := by
  by_cases group : char = '('.toUInt8
  · subst group
    refine Ends.call (fun fuel => command_group fuel _ index) (Ends.bind later.parseOr ?_)
    rintro ⟨newRegex, next⟩ h1 ⟨forward, inside, new, rfl, grown1⟩
    exact Ends.gives (Gives.pure _ _)
      ⟨Nat.lt_of_succ_lt forward, inside, new, last, rfl, rfl, grown.beside grown1⟩
  · refine Ends.call (fun fuel => command_simple fuel _ index group) ?_
    exact (simpleCommand_settles grown here).ends.imp fun found h' here => here.1

theorem parseLoop_ends (later : ∀ next, index < next → ParseEnds text next) {hs h : Heap}
    {untilChars : List UInt8} {regex : Tree} {last : Option Tree} (inside : index ≤ text.length)
    (grown : Grown hs [] (regex :: last.toList) h) :
    Ends (Exhausted text)
      (fun fuel => parseLoop fuel text index untilChars regex.ref (last.map ref)) h
      fun found h' => index ≤ found.2.2 ∧ found.2.2 ≤ text.length ∧
        ∃ (total : Tree) (rest : Option Tree), found.1 = total.ref ∧ found.2.1 = rest.map ref ∧
          Grown hs [] (total :: rest.toList) h' := by
  cases here : text[index]? with
  | none =>
      exact Ends.call (fun fuel => parseLoop_end fuel _ _ here) (Ends.gives (Gives.pure _ _)
        ⟨Nat.le_refl _, inside, regex, last, rfl, rfl, grown⟩)
  | some char =>
  obtain ⟨bound, _⟩ := List.getElem?_eq_some_iff.mp here
  by_cases stops : char ∈ untilChars
  · exact Ends.call (fun fuel => parseLoop_until fuel _ _ here stops) (Ends.gives (Gives.pure _ _)
      ⟨Nat.le_refl _, inside, regex, last, rfl, rfl, grown⟩)
  by_cases special : char ∈ regexCommandCharacters
  · refine Ends.call (fun fuel => parseLoop_command fuel _ _ here stops special)
      (Ends.bind (command_ends (later _ (Nat.lt_succ_self _)) here grown) ?_)
    rintro ⟨newRegex, rest', next⟩ h1 ⟨forward, inside1, new, rest, rfl, rfl, grown1⟩
    obtain ⟨total, h2, adds, grown2, _⟩ := addLast_grows grown1
    refine Ends.after adds (Ends.after (Gives.enter _ _) ?_)
    refine (@ParseEnds.parseLoop _ _ (later next forward) hs h2 untilChars total (some new) inside1
      grown2).imp fun found h' here => ?_
    exact ⟨(Nat.le_of_lt forward).trans here.1, here.2⟩
  · obtain ⟨total, h1, adds, grown1, _⟩ :=
      @addLast_grows hs h regex last [] (by rwa [List.append_nil])
    refine Ends.call (fun fuel => parseLoop_character fuel _ _ here stops special)
      (Ends.after adds (Ends.after (newAtom_gives _ h1) (Ends.after (Gives.enter _ _) ?_)))
    refine (@ParseEnds.parseLoop _ _ (later (index + 1) (Nat.lt_succ_self _)) hs _ untilChars total
      (some (.atom h1.size (.regexString [char] (List.cons_ne_nil _ _)))) bound
      (grown1.beside (Grown.atom _))).imp fun found h' here => ?_
    exact ⟨Nat.le_of_succ_le here.1, here.2⟩

theorem underParse_ends (later : ∀ next, index < next → ParseEnds text next) {h : Heap}
    {untilChars : List UInt8} (inside : index ≤ text.length) :
    Ends (Exhausted text) (fun fuel => underParse fuel text index untilChars) h
      fun found h' => (index = text.length → found.2 = 0) ∧
        (index < text.length → index ≤ found.2) ∧ found.2 ≤ text.length ∧
        ∃ t : Tree, found.1 = t.ref ∧ Grown h [] [t] h' := by
  have grown : Grown h [] ([.atom h.size .regexEmpty] ++ (none : Option Tree).toList)
      (h.new (.atom .regexEmpty)).2 := Grown.atom .regexEmpty
  refine Ends.call (fun fuel => underParse_step fuel index)
    (Ends.after (newAtom_gives .regexEmpty h) ?_)
  by_cases atEnd : text.length = index
  · simp only [if_pos atEnd]
    exact Ends.gives (Gives.pure _ _)
      ⟨fun _ => rfl, fun less => by omega, Nat.zero_le _, _, rfl, grown⟩
  simp only [if_neg atEnd]
  refine Ends.bind (parseLoop_ends later inside grown) ?_
  rintro ⟨regex, rest, next⟩ h1 ⟨forward, bound, total, last, rfl, rfl, grown1⟩
  obtain ⟨new, h2, adds, grown2, _⟩ :=
    @addLast_grows h h1 total last [] (by rwa [List.append_nil])
  exact Ends.after adds (Ends.gives (Gives.pure _ _)
    ⟨fun same => absurd same.symm atEnd, fun _ => forward, bound, new, rfl, grown2⟩)

theorem orLoop_ends (later : ∀ next, index < next → ParseEnds text next) {hs h : Heap}
    {regex : Option Tree} (inside : index ≤ text.length) (grown : Grown hs [] regex.toList h) :
    Ends (Exhausted text) (fun fuel => orLoop fuel text index (regex.map ref)) h
      fun found h' => index ≤ found.2 ∧ found.2 < text.length ∧
        ∃ t : Tree, found.1 = t.ref ∧ Grown hs [] [t] h' := by
  refine Ends.call (fun fuel => orLoop_step fuel index _)
    (Ends.bind (underParse_ends later inside) ?_)
  rintro ⟨newRegex, next⟩ h1 ⟨atEnd, forward, bound, new, rfl, grown1⟩
  obtain ⟨total, h2, joins, grown2, _⟩ := orNext_grows (grown.beside grown1)
  refine Ends.after joins ?_
  by_cases missing : text.length ≤ next
  · simp only [if_pos missing]
    exact Ends.raise _ h2
  simp only [if_neg missing]
  obtain same | less := Nat.eq_or_lt_of_le inside
  · have exhausted : Exhausted text ⟨.parseOr, index, next + 1⟩ := ⟨rfl, Nat.le_of_eq same.symm⟩
    exact Ends.bind (@Ends.trip _ _ _ _ _ exhausted h2 fun _ _ => False)
      fun _ _ wrong => wrong.elim
  refine Ends.after (Gives.enter _ _) ?_
  by_cases closes : text[next]? = some ')'.toUInt8
  · simp only [if_pos closes]
    exact Ends.gives (Gives.pure _ _) ⟨forward less, Nat.not_le.mp missing, total, rfl, grown2⟩
  · simp only [if_neg closes]
    have further : index < next + 1 := Nat.lt_succ_of_le (forward less)
    refine (@ParseEnds.orLoop _ _ (later (next + 1) further) hs h2 (some total)
      (Nat.not_le.mp missing) grown2).imp fun found h' here => ?_
    exact ⟨(Nat.le_of_lt further).trans here.1, here.2⟩

theorem parseOr_ends (later : ∀ next, index < next → ParseEnds text next) {h : Heap} :
    Ends (Exhausted text) (fun fuel => parseOr fuel text index) h
      fun found h' => index < found.2 ∧ found.2 ≤ text.length ∧
        ∃ t : Tree, found.1 = t.ref ∧ Grown h [] [t] h' := by
  have begins : groupStart text index = index ∨ index < groupStart text index := by
    unfold groupStart
    split_ifs <;> omega
  cases here : text[groupStart text index]? with
  | none =>
      exact Ends.call (fun fuel => parseOr_step fuel index)
        (.inr (.inl ⟨_, RaisesWith.bind (charAt_raises here h)⟩))
  | some char =>
  obtain ⟨bound, _⟩ := List.getElem?_eq_some_iff.mp here
  refine Ends.call (fun fuel => parseOr_step fuel index) (Ends.after (charAt_gives here h) ?_)
  by_cases extension : char = '?'.toUInt8
  · simp only [if_pos extension]
    exact Ends.raise _ h
  simp only [if_neg extension]
  have empty : Grown h [] (none : Option Tree).toList h :=
    Grown.refl (fun _ member => by cases member) fun _ member => by cases member
  have looped : Ends (Exhausted text) (fun fuel => orLoop fuel text (groupStart text index) none) h
      fun found h' => groupStart text index ≤ found.2 ∧ found.2 < text.length ∧
        ∃ t : Tree, found.1 = t.ref ∧ Grown h [] [t] h' := by
    obtain same | further := begins
    · rw [same] at bound ⊢
      exact orLoop_ends later (Nat.le_of_lt bound) empty
    · exact (later _ further).orLoop (Nat.le_of_lt bound) empty
  refine Ends.bind looped ?_
  rintro ⟨regex, next⟩ h1 ⟨forward, inside, t, rfl, grown1⟩
  have begins : index ≤ groupStart text index := begins.elim (fun same => same.ge) Nat.le_of_lt
  exact Ends.gives (Gives.pure _ _)
    ⟨Nat.lt_succ_of_le (begins.trans forward), inside, t, rfl, grown1⟩

theorem parseEnds_step (later : ∀ next, index < next → ParseEnds text next) :
    ParseEnds text index where
  underParse := underParse_ends later
  parseLoop := parseLoop_ends later
  command := command_ends (later _ (Nat.lt_succ_self _))
  parseOr := parseOr_ends later
  orLoop := orLoop_ends later

theorem parseEnds_past (past : text.length < index) : ParseEnds text index where
  underParse inside := absurd past (Nat.not_lt.mpr inside)
  parseLoop inside _ := absurd past (Nat.not_lt.mpr inside)
  command here _ := by
    obtain ⟨bound, _⟩ := List.getElem?_eq_some_iff.mp here
    omega
  parseOr := by
    intro h
    have begins : index ≤ groupStart text index := by
      unfold groupStart
      split_ifs <;> omega
    have none : text[groupStart text index]? = none :=
      List.getElem?_eq_none (Nat.le_of_lt (Nat.lt_of_lt_of_le past begins))
    exact Ends.call (fun fuel => parseOr_step fuel index)
      (.inr (.inl ⟨_, RaisesWith.bind (charAt_raises none h)⟩))
  orLoop inside _ := absurd past (Nat.not_lt.mpr inside)

end Ends

/-- By how many characters are left. -/
theorem parseEnds_all (text : List UInt8) (left : Nat) {index : Nat}
    (near : text.length ≤ index + left) : ParseEnds text index := by
  induction left generalizing index with
  | zero =>
      exact parseEnds_step fun next further => parseEnds_past (Nat.lt_of_le_of_lt near further)
  | succ left induction => exact parseEnds_step fun next further => induction (by omega)

/-- `parse(text)` returns or raises. -/
def Terminates (text : List UInt8) (h : Heap) : Prop :=
  (∃ ref h', Gives (fun fuel => parse fuel text) h ref h') ∨ Raises (fun fuel => parse fuel text) h

section Endless

/-- The run lacks fuel. -/
abbrev Starves {α : Type} (run : Parsing α) (h : Heap) : Prop :=
  Meets run h (fun _ _ => False) fun _ => False

theorem Starves.bind {α β : Type} {run : Parsing α} {h : Heap} (starves : Starves run h)
    (next : α → Parsing β) : Starves (run >>= next) h :=
  Meets.bind starves fun _ _ _ wrong => False.elim wrong

theorem newString_meets (char : UInt8) (h : Heap) :
    Meets (newString char) h (fun _ _ => True) fun _ => False := by
  unfold newString newAtom
  exact Meets.step _ h

theorem enter_meets (turn : Turn) (h : Heap) :
    Meets (Logged.enter turn : Parsing PUnit) h (fun _ _ => True) fun _ => False :=
  Meets.enter trivial

theorem addLast_meets (fuel : Nat) (regex : Ref) (last : Option Ref) (h : Heap) :
    Meets (addLast fuel regex last) h (fun _ _ => True) fun _ => False := by
  cases last with
  | none => exact Meets.pure trivial
  | some last => exact Meets.step _ _

theorem orNext_meets (fuel : Nat) (regex : Option Ref) (newRegex : Ref) (h : Heap) :
    Meets (orNext fuel regex newRegex) h (fun _ _ => True) fun _ => False := by
  cases regex with
  | none => exact Meets.pure trivial
  | some regex => exact Meets.step _ _

theorem alternative_ends (fuel : Nat) (regex : Ref) (last : Option Ref) (h : Heap) :
    Meets (parseLoop fuel [40, 97, 124] 2 (['|', ')'].map Char.toUInt8) regex last) h
      (fun found _ => found.2.2 = 2) fun _ => False := by
  cases fuel with
  | zero => exact Meets.starve
  | succ fuel => exact Meets.pure rfl

theorem letter_ends (fuel : Nat) (regex : Ref) (h : Heap) :
    Meets (parseLoop fuel [40, 97, 124] 1 (['|', ')'].map Char.toUInt8) regex none) h
      (fun found _ => found.2.2 = 2) fun _ => False := by
  cases fuel with
  | zero => exact Meets.starve
  | succ fuel =>
      rw [parseLoop_character fuel regex none rfl (by decide) (by decide)]
      refine Meets.bind (addLast_meets fuel regex none h) fun regex h1 _ _ => ?_
      refine Meets.bind (newString_meets 97 h1) fun newRegex h2 _ _ => ?_
      refine Meets.bind (enter_meets _ h2) fun _ h3 _ _ => ?_
      exact alternative_ends fuel regex (some newRegex) h3

/-- An alternative begins at the letter or at the end of the text. -/
theorem alternative_meets (fuel : Nat) {index : Nat} (place : index = 1 ∨ index = 3) (h : Heap) :
    Meets (underParse fuel [40, 97, 124] index (['|', ')'].map Char.toUInt8)) h
      (fun found _ => found.2 = 3 - index) fun _ => False := by
  cases fuel with
  | zero => exact Meets.starve
  | succ fuel =>
  rw [underParse_step]
  refine Meets.bind (Meets.step _ _) fun regex h1 _ _ => ?_
  rcases place with rfl | rfl
  · rw [if_neg (by decide)]
    refine Meets.bind (letter_ends fuel regex h1) fun found h2 _ here => ?_
    refine Meets.bind (addLast_meets fuel found.1 found.2.1 h2) fun regex h3 _ _ => ?_
    exact Meets.pure here
  · exact Meets.pure rfl

theorem orLoop_starves (fuel : Nat) {index : Nat} (place : index = 1 ∨ index = 3)
    (regex : Option Ref) (h : Heap) : Starves (orLoop fuel [40, 97, 124] index regex) h := by
  induction fuel generalizing index regex h with
  | zero =>
      rw [orLoop]
      exact Meets.starve
  | succ fuel induction =>
  rw [orLoop_step]
  refine Meets.bind (alternative_meets fuel place h) fun found h1 _ here => ?_
  refine Meets.bind (orNext_meets fuel regex found.1 h1) fun total h2 _ _ => ?_
  obtain ⟨newRegex, next⟩ := found
  have here : next = 3 - index := here
  subst here
  rcases place with rfl | rfl
  · exact Meets.bind (enter_meets _ h2) fun _ h3 _ _ => induction (.inr rfl) (some total) h3
  · exact Meets.bind (enter_meets _ h2) fun _ h3 _ _ => induction (.inl rfl) (some total) h3

theorem group_starves (fuel : Nat) (h : Heap) : Starves (parseOr fuel [40, 97, 124] 1) h := by
  cases fuel with
  | zero => exact Meets.starve
  | succ fuel =>
      rw [parseOr_step]
      refine (steady_const _).meetsAfter (@charAt_gives _ _ 97 rfl h) ?_ fuel
      rw [if_neg (by decide)]
      exact (orLoop_starves fuel (.inl rfl) none h).bind _

theorem parse_starves (fuel : Nat) (h : Heap) : Starves (parse fuel [40, 97, 124]) h := by
  have opened : ∀ fuel h, Starves (command fuel [40, 97, 124] 0 40 none) h := by
    intro fuel h
    cases fuel with
    | zero => exact Meets.starve
    | succ fuel => exact (group_starves fuel h).bind _
  have looped : ∀ fuel regex h, Starves (parseLoop fuel [40, 97, 124] 0 [] regex none) h := by
    intro fuel regex h
    cases fuel with
    | zero => exact Meets.starve
    | succ fuel =>
        rw [parseLoop_command fuel regex none rfl (by decide) (by decide)]
        exact (opened fuel h).bind _
  have read : Starves (underParse fuel [40, 97, 124] 0 []) h := by
    cases fuel with
    | zero => exact Meets.starve
    | succ fuel =>
        rw [underParse_step]
        refine (steady_const _).meetsAfter (newAtom_gives .regexEmpty h) ?_ fuel
        rw [if_neg (by decide)]
        exact (looped fuel _ _).bind _
  exact read.bind _

end Endless

end Segvault.HachoirRegex
