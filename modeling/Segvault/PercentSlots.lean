import Segvault.PercentFormat

namespace Segvault.PercentFormat

variable {α : Type} {conversions : Conversions α} {letter : Char}

theorem move_percent (pending : Pending) :
    move pending '%' = .percent (pad pending.flags pending.width ['%']) := by
  cases phase : pending.phase <;>
    simp [move, phase, afterWidth, afterPrecision, endMove, Char.isDigit]

/-! What has been put out stays, and arguments that are not taken are not needed. -/

structure Advances (action : State α → Option (State α)) (state after : State α) : Prop where
  output : state.output <+: after.output
  fewer : after.arguments.length ≤ state.arguments.length
  without : after.arguments.length = state.arguments.length →
    action { state with arguments := [] } = some { after with arguments := [] }

theorem step_advances {symbol : Char} {state after : State α}
    (result : step conversions state symbol = some after) :
    Advances (fun state => step conversions state symbol) state after := by
  obtain ⟨output, arguments, _ | pending⟩ := state
  · by_cases percent : symbol = '%'
    · cases (if_pos percent).symm.trans result
      exact ⟨List.prefix_rfl, Nat.le_refl _, fun _ => if_pos percent⟩
    · cases (if_neg percent).symm.trans result
      exact ⟨List.prefix_append _ _, Nat.le_refl _, fun _ => if_neg percent⟩
  · have alone : step conversions ⟨output, [], some pending⟩ symbol =
        perform conversions ⟨output, [], some pending⟩ (move pending symbol) := rfl
    change perform conversions _ (move pending symbol) = some after at result
    cases kind : move pending symbol with
    | read next =>
        rw [kind] at result alone
        cases result
        exact ⟨List.prefix_rfl, Nat.le_refl _, fun _ => alone⟩
    | percent text =>
        rw [kind] at result alone
        cases result
        exact ⟨List.prefix_append _ _, Nat.le_refl _, fun _ => alone⟩
    | raise =>
        rw [kind] at result
        cases result
    | number next =>
        rw [kind] at result
        cases arguments with
        | nil => cases result
        | cons argument arguments =>
            obtain ⟨number, -, rfl⟩ := Option.map_eq_some_iff.mp result
            exact ⟨List.prefix_rfl, Nat.le_succ _,
              fun same => absurd same (Nat.ne_of_lt (Nat.lt_succ_self _))⟩
    | convert directive =>
        rw [kind] at result
        cases arguments with
        | nil => cases result
        | cons argument arguments =>
            obtain ⟨text, -, rfl⟩ := Option.map_eq_some_iff.mp result
            exact ⟨List.prefix_append _ _, Nat.le_succ _,
              fun same => absurd same (Nat.ne_of_lt (Nat.lt_succ_self _))⟩

theorem run_advances {text : Text} {state after : State α}
    (result : run conversions state text = some after) :
    Advances (fun state => run conversions state text) state after := by
  induction text generalizing state with
  | nil =>
      cases result
      exact ⟨List.prefix_rfl, Nat.le_refl _, fun _ => rfl⟩
  | cons symbol text induction =>
      obtain ⟨middle, first, rest⟩ := Option.bind_eq_some_iff.mp result
      have one := step_advances first
      have others := induction rest
      refine ⟨one.output.trans others.output, Nat.le_trans others.fewer one.fewer,
        fun same => ?_⟩
      refine Option.bind_eq_some_iff.mpr ⟨_, one.without ?_, others.without ?_⟩
      · exact Nat.le_antisymm one.fewer (same ▸ others.fewer)
      · exact Nat.le_antisymm others.fewer (same ▸ one.fewer)

/-! Texts with bare directives of one letter, and other symbols between them. -/

inductive Slots (letter : Char) (admits : Char → Prop) : Text → Nat → Prop
  | nil : Slots letter admits [] 0
  | symbol {symbol : Char} {text : Text} {count : Nat} (plain : symbol ≠ '%')
      (admitted : admits symbol) (slots : Slots letter admits text count) :
      Slots letter admits (symbol :: text) count
  | slot {text : Text} {count : Nat} (slots : Slots letter admits text count) :
      Slots letter admits ('%' :: letter :: text) (count + 1)

variable {admits : Char → Prop} {shown : α → Text}

theorem Slots.append {first second : Text} {one other : Nat} (slots : Slots letter admits first one)
    (more : Slots letter admits second other) :
    Slots letter admits (first ++ second) (one + other) := by
  induction slots with
  | nil => exact (Nat.zero_add other).symm ▸ more
  | symbol plain admitted _ induction => exact .symbol plain admitted induction
  | slot _ induction =>
      rw [Nat.add_right_comm]
      exact .slot induction

theorem slots_zero {text : Text} (plain : '%' ∉ text) (admitted : ∀ symbol ∈ text, admits symbol) :
    Slots letter admits text 0 := by
  induction text with
  | nil => exact .nil
  | cons symbol text induction =>
      obtain ⟨differs, plain⟩ := List.ne_and_not_mem_of_not_mem_cons plain
      obtain ⟨own, admitted⟩ := List.forall_mem_cons.mp admitted
      exact .symbol differs.symm own (induction plain admitted)

theorem run_slots (converts : Converts letter)
    (bare : ∀ argument, conversions.convert { conversion := letter } argument =
      some (shown argument)) {text : Text} {count : Nat} (slots : Slots letter admits text count)
    {arguments : List α} (enough : count ≤ arguments.length) (output : Text) :
    ∃ filled, run conversions { output, arguments } text =
        some { output := output ++ filled, arguments := arguments.drop count } ∧
      ∀ symbol ∈ filled, symbol ≠ '%' ∧ admits symbol ∨
        ∃ argument ∈ arguments, symbol ∈ shown argument := by
  induction slots generalizing arguments output with
  | nil =>
      refine ⟨[], ?_, fun symbol member => absurd member List.not_mem_nil⟩
      rw [List.append_nil]
      rfl
  | @symbol symbol text count plain admitted slots induction =>
      obtain ⟨filled, ran, own⟩ := induction enough (output ++ [symbol])
      refine ⟨symbol :: filled, ?_, fun other member => ?_⟩
      · have one : step conversions { output, arguments } symbol =
            some { output := output ++ [symbol], arguments } := if_neg plain
        rw [run, List.foldlM_cons, one]
        exact ran.trans (by rw [List.append_assoc]; rfl)
      · obtain rfl | later := List.mem_cons.mp member
        · exact .inl ⟨plain, admitted⟩
        · exact own other later
  | @slot text count slots induction =>
      cases arguments with
      | nil => exact absurd enough (Nat.not_succ_le_zero _)
      | cons argument arguments =>
          obtain ⟨filled, ran, own⟩ := induction (Nat.le_of_succ_le_succ enough)
            (output ++ shown argument)
          refine ⟨shown argument ++ filled, ?_, fun other member => ?_⟩
          · have directive := @run_directive _ conversions _ converts output argument arguments
            rw [bare, Option.map_some] at directive
            have parts : '%' :: letter :: text = ['%', letter] ++ text := rfl
            rw [parts, run_append, directive, Option.bind_some, ran, List.append_assoc]
            rfl
          · obtain here | later := List.mem_append.mp member
            · exact .inr ⟨argument, List.mem_cons_self, here⟩
            · refine (own other later).imp_right ?_
              rintro ⟨another, known, inside⟩
              exact ⟨another, List.mem_cons_of_mem _ known, inside⟩

/-- Too few arguments do not fill the slots. -/
theorem run_slots_short (converts : Converts letter) {text : Text} {count : Nat}
    (slots : Slots letter admits text count) {arguments : List α}
    (short : arguments.length < count) (output : Text) :
    run conversions { output, arguments } text = none := by
  induction slots generalizing arguments output with
  | nil => exact absurd short (Nat.not_lt_zero _)
  | @symbol symbol text count plain admitted slots induction =>
      have one : step conversions { output, arguments } symbol =
          some { output := output ++ [symbol], arguments } := if_neg plain
      rw [run, List.foldlM_cons, one]
      exact induction short _
  | @slot text count slots induction =>
      have parts : '%' :: letter :: text = ['%', letter] ++ text := rfl
      rw [parts, run_append]
      cases arguments with
      | nil =>
          have opened : step conversions { output } '%' = some { output, pending := some {} } := rfl
          rw [run, List.foldlM_cons, opened]
          have raised : step conversions { output, pending := some {} } letter = none := by
            simp only [step, move_letter converts, perform]
          change ((step conversions _ letter).bind some).bind _ = none
          rw [raised]
          rfl
      | cons argument arguments =>
          rw [run_directive converts]
          cases conversions.convert { conversion := letter } argument with
          | none => rfl
          | some shown => exact induction (Nat.lt_of_succ_lt_succ short) _

/-! Percent signs before the letter, the blanks left out. -/

def solid (text : Text) : Text := text.filter (· ≠ ' ')

theorem solid_append (first second : Text) : solid (first ++ second) = solid first ++ solid second :=
  List.filter_append ..

theorem solid_pad (flags : Text) (width : Nat) : solid (pad flags width ['%']) = ['%'] := by
  have blanks (count : Nat) : solid (List.replicate count ' ') = [] :=
    List.filter_eq_nil_iff.mpr fun symbol member => by simp [List.eq_of_mem_replicate member]
  rw [pad]
  split
  · rw [solid_append, blanks]
    rfl
  · rw [solid_append, blanks]
    rfl

theorem pair_infix_snoc {first second symbol : Char} {text : Text} :
    [first, second] <:+: text ++ [symbol] ↔
      [first, second] <:+: text ∨ symbol = second ∧ [first] <:+ text := by
  rw [List.infix_concat_iff, List.suffix_concat_iff, or_comm]
  refine or_congr_right ?_
  constructor
  · rintro (none_ | ⟨before, same, ends⟩)
    · cases none_
    · obtain ⟨rfl, last⟩ := List.append_inj' (show [first] ++ [second] = before ++ [symbol] from same)
        rfl
      cases last
      exact ⟨rfl, ends⟩
  · rintro ⟨rfl, ends⟩
    exact .inr ⟨[first], rfl, ends⟩

theorem pair_infix_left {first second : Char} {text more : Text} (absent : second ∉ more)
    (inside : [first, second] <:+: text ++ more) : [first, second] <:+: text := by
  induction more generalizing text with
  | nil => rwa [List.append_nil] at inside
  | cons symbol more induction =>
      obtain ⟨differs, absent⟩ := List.ne_and_not_mem_of_not_mem_cons absent
      have step : [first, second] <:+: text ++ [symbol] :=
        induction absent (by rwa [List.append_assoc])
      exact (pair_infix_snoc.mp step).resolve_right fun same => differs same.1.symm

theorem single_suffix_snoc {first symbol : Char} {text : Text} :
    [first] <:+ text ++ [symbol] ↔ symbol = first := by
  rw [List.suffix_concat_iff]
  constructor
  · rintro (none_ | ⟨before, same, -⟩)
    · cases none_
    · obtain ⟨-, last⟩ := List.append_inj' (show [] ++ [first] = before ++ [symbol] from same) rfl
      cases last
      rfl
  · rintro rfl
    exact .inr ⟨[], rfl, List.nil_suffix⟩

/-- What has been read of a text without arguments, and what has been put out. -/
structure Matched (letter : Char) (read : Text) (state : State α) : Prop where
  arguments : state.arguments = []
  inside : ['%', letter] <:+: solid state.output ↔ ['%', letter] <:+: read
  edge : state.pending = none → (['%'] <:+ solid state.output ↔ ['%'] <:+ read)

theorem Matched.step (converts : Converts letter) {read : Text} {state after : State α}
    (matched : Matched letter read state) {symbol : Char} (notBlank : symbol ≠ ' ')
    (result : step conversions state symbol = some after) :
    Matched letter (read ++ [symbol]) after := by
  have notPercent : letter ≠ '%' := fun same => converts.1 (same ▸ List.mem_cons_self)
  obtain ⟨output, arguments, _ | pending⟩ := state
  all_goals obtain rfl : arguments = [] := matched.arguments
  · by_cases percent : symbol = '%'
    · cases (if_pos percent).symm.trans result
      refine ⟨rfl, matched.inside.trans ?_, nofun⟩
      rw [pair_infix_snoc, percent]
      exact (or_iff_left fun opened => notPercent opened.1.symm).symm
    · cases (if_neg percent).symm.trans result
      have single : solid [symbol] = [symbol] := by simp [solid, notBlank]
      refine ⟨rfl, ?_, fun _ => ?_⟩
      · rw [solid_append, single, pair_infix_snoc, pair_infix_snoc]
        exact or_congr matched.inside (and_congr_right fun _ => matched.edge rfl)
      · rw [solid_append, single, single_suffix_snoc, single_suffix_snoc]
  · have ends := move_ends pending symbol
    change perform conversions _ (move pending symbol) = some after at result
    cases kind : move pending symbol with
    | read next =>
        rw [kind] at result
        cases result
        refine ⟨rfl, matched.inside.trans ?_, nofun⟩
        rw [pair_infix_snoc]
        refine (or_iff_left fun opened => ?_).symm
        have moves := move_letter converts pending
        rw [← opened.1, kind] at moves
        cases moves
    | percent text =>
        rw [kind] at result ends
        obtain ⟨rfl, rfl⟩ := ends
        cases result
        refine ⟨rfl, ?_, fun _ => ?_⟩
        · rw [solid_append, solid_pad, pair_infix_snoc, pair_infix_snoc]
          exact or_congr matched.inside
            (iff_of_false (fun same => notPercent same.1.symm) fun same => notPercent same.1.symm)
        · rw [solid_append, solid_pad, single_suffix_snoc, single_suffix_snoc]
    | number next =>
        rw [kind] at result
        cases result
    | convert directive =>
        rw [kind] at result
        cases result
    | raise =>
        rw [kind] at result
        cases result

theorem Matched.run (converts : Converts letter) {read text : Text} {state after : State α}
    (matched : Matched letter read state) (notBlank : ' ' ∉ text)
    (result : run conversions state text = some after) : Matched letter (read ++ text) after := by
  induction text generalizing read state with
  | nil =>
      cases result
      rw [List.append_nil]
      exact matched
  | cons symbol text induction =>
      obtain ⟨middle, first, rest⟩ := Option.bind_eq_some_iff.mp result
      obtain ⟨differs, others⟩ := List.ne_and_not_mem_of_not_mem_cons notBlank
      have next := induction (matched.step converts differs.symm first) others rest
      rwa [List.append_assoc] at next

/-- In a text without blanks that is a format without arguments, the letter follows a percent sign
as often as in what it gives. -/
theorem literal_infix_iff (converts : Converts letter) {text rendered : Text} (notBlank : ' ' ∉ text)
    (literal : format conversions text [] = some rendered) :
    ['%', letter] <:+: solid rendered ↔ ['%', letter] <:+: text := by
  have start : Matched letter [] ({} : State α) := ⟨rfl, Iff.rfl, fun _ => Iff.rfl⟩
  exact (start.run converts notBlank (format_nil_iff.mp literal)).inside

end Segvault.PercentFormat
