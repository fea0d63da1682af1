import JsOs.ConversionBuffers
import JsOs.FormatTruncation

/-!
# Formats are read to their end

Whatever bytes a format has, every round of the main loop passes at least one of them and stops at
the NUL at the latest, whether or not a width or a precision overflows.
-/

namespace JsOs.FormatTotality

open MachineWords FormatModel FormatTruncation FormatReading ConversionBuffers

section Demands

inductive ArgumentKind where
  | int
  | long
  | pointer
  | double
  | string
  deriving DecidableEq, Repr

def kind : Argument → ArgumentKind
  | .int _ => .int
  | .long _ => .long
  | .pointer _ => .pointer
  | .double _ => .double
  | .string _ => .string

def Terminated : Argument → Prop
  | .string (some text) => 0 ∈ text
  | _ => True

def isDigit (c : UInt8) : Bool := chr '0' ≤ c ∧ c ≤ chr '9'

/-- The argument that a width takes, and the format behind the width. -/
def afterWidth : List UInt8 → List ArgumentKind × List UInt8
  | [] => ([], [])
  | c :: format =>
    if c = chr '*' then ([.int], format) else ([], (c :: format).dropWhile isDigit)

def afterPrecision : List UInt8 → List ArgumentKind × List UInt8
  | [] => ([], [])
  | c :: format => if c = chr '.' then afterWidth format else ([], c :: format)

def conversionDemands (modifier : LengthModifier) (c : UInt8) : List ArgumentKind :=
  if c = chr 's' then [.string]
  else if c = chr 'c' then [.int]
  else if (c = chr 'd' ∨ c = chr 'i') ∨ c ∈ ascii "uxXo" then
    [if modifier = .default then .int else .long]
  else if c = chr 'p' then [.pointer]
  else if isFloating c then [.double]
  else []

/-- The arguments of a directive, and the format behind it. -/
def directiveDemands (format : List UInt8) : List ArgumentKind × List UInt8 :=
  let width := afterWidth (scanFlags ⟨false, false, false, false, false⟩ format).2
  let precision := afterPrecision width.2
  let length := scanLength precision.2
  let conversion := scanConversion length.2
  (width.1 ++ (precision.1 ++ conversionDemands length.1 conversion.1), conversion.2)

theorem afterWidth_length (format : List UInt8) : (afterWidth format).2.length ≤ format.length := by
  cases format with
  | nil => exact le_refl 0
  | cons c format =>
    rw [afterWidth]
    split_ifs
    · exact Nat.le_succ _
    · exact (List.dropWhile_sublist isDigit).length_le

theorem afterPrecision_length (format : List UInt8) :
    (afterPrecision format).2.length ≤ format.length := by
  cases format with
  | nil => exact le_refl 0
  | cons c format =>
    rw [afterPrecision]
    split_ifs
    · exact Nat.le_succ_of_le (afterWidth_length format)
    · exact le_refl _

theorem directiveDemands_length (format : List UInt8) :
    (directiveDemands format).2.length ≤ format.length :=
  calc (directiveDemands format).2.length ≤ _ := scanConversion_length _
    _ ≤ _ := scanLength_length _
    _ ≤ _ := afterPrecision_length _
    _ ≤ _ := afterWidth_length _
    _ ≤ format.length := scanFlags_length _ _

/-- The arguments of a format. -/
def demands : List UInt8 → List ArgumentKind
  | [] => []
  | c :: format =>
    if c ≠ chr '%' then demands format
    else if format.head? = some (chr '%') then demands format.tail
    else (directiveDemands format).1 ++ demands (directiveDemands format).2
termination_by format => format.length
decreasing_by
  · exact Nat.lt_succ_self _
  · rw [List.length_tail, List.length_cons]
    omega
  · exact Nat.lt_succ_of_le (directiveDemands_length format)

/-- The arguments that the format asks for, and maybe more. -/
structure Matching (format : List UInt8) (args : List Argument) : Prop where
  kinds : demands format <+: args.map kind
  terminated : ∀ a ∈ args, Terminated a

end Demands

section Grammar

def IsWidth (text : List UInt8) : Prop := text = [chr '*'] ∨ ∀ c ∈ text, isDigit c

def IsPrecision (text : List UInt8) : Prop :=
  text = [] ∨ ∃ width, IsWidth width ∧ text = chr '.' :: width

def lengthModifiers : List (List UInt8) :=
  ["", "l", "ll", "z", "t", "j", "h", "hh"].map ascii

/-- A directive, or what there is of it when the format ends. -/
def IsDirective (text : List UInt8) : Prop :=
  ∃ flags width precision modifier conversion,
    text = chr '%' :: (flags ++ (width ++ (precision ++ (modifier ++ conversion)))) ∧
    (∀ c ∈ flags, c ∈ ascii "-+ #0") ∧ IsWidth width ∧ IsPrecision precision ∧
    modifier ∈ lengthModifiers ∧ conversion.length ≤ 1

theorem scanFlags_split (flags : Flags) (format : List UInt8) :
    ∃ fs, format = fs ++ (scanFlags flags format).2 ∧ ∀ c ∈ fs, c ∈ ascii "-+ #0" := by
  induction format generalizing flags with
  | nil => exact ⟨[], rfl, fun c hc => absurd hc List.not_mem_nil⟩
  | cons c format ih =>
    have hcons {flags' : Flags} (hc : c ∈ ascii "-+ #0") :
        ∃ fs, c :: format = fs ++ (scanFlags flags' format).2 ∧ ∀ c ∈ fs, c ∈ ascii "-+ #0" := by
      obtain ⟨fs, hfs, hall⟩ := ih flags'
      refine ⟨c :: fs, congrArg (c :: ·) hfs, fun c' hc' => ?_⟩
      cases hc' with
      | head => exact hc
      | tail _ hc' => exact hall c' hc'
    rw [scanFlags]
    split_ifs with h₁ h₂ h₃ h₄ h₅
    · exact hcons (by rw [h₁]; decide)
    · exact hcons (by rw [h₂]; decide)
    · exact hcons (by rw [h₃]; decide)
    · exact hcons (by rw [h₄]; decide)
    · exact hcons (by rw [h₅]; decide)
    · exact ⟨[], rfl, fun c hc => absurd hc List.not_mem_nil⟩

theorem afterWidth_split (format : List UInt8) :
    ∃ text, format = text ++ (afterWidth format).2 ∧ IsWidth text := by
  cases format with
  | nil => exact ⟨[], rfl, .inr fun c hc => absurd hc List.not_mem_nil⟩
  | cons c format =>
    rw [afterWidth]
    split_ifs with h
    · exact ⟨[c], rfl, .inl (congrArg (fun c => [c]) h)⟩
    · exact ⟨(c :: format).takeWhile isDigit, List.takeWhile_append_dropWhile.symm,
        .inr fun c hc => List.all_eq_true.mp List.all_takeWhile c hc⟩

theorem afterPrecision_split (format : List UInt8) :
    ∃ text, format = text ++ (afterPrecision format).2 ∧ IsPrecision text := by
  cases format with
  | nil => exact ⟨[], rfl, .inl rfl⟩
  | cons c format =>
    rw [afterPrecision]
    split_ifs with h
    · obtain ⟨text, htext, hwidth⟩ := afterWidth_split format
      exact ⟨c :: text, congrArg (c :: ·) htext, .inr ⟨text, hwidth, congrArg (· :: text) h⟩⟩
    · exact ⟨[], rfl, .inl rfl⟩

theorem scanLength_split (format : List UInt8) :
    ∃ text ∈ lengthModifiers, format = text ++ (scanLength format).2 := by
  cases format with
  | nil => exact ⟨[], by decide, rfl⟩
  | cons c format =>
    cases format with
    | nil =>
      unfold scanLength
      dsimp only
      split_ifs with h₁ h₂ h₃ h₄
      · exact ⟨[c], by rw [h₁]; decide, rfl⟩
      · exact ⟨[c], by rcases h₂ with h₂ | h₂ <;> rw [h₂] <;> decide, rfl⟩
      · exact ⟨[c], by rw [h₃]; decide, rfl⟩
      · exact ⟨[c], by rw [h₄]; decide, rfl⟩
      · exact ⟨[], by decide, rfl⟩
    | cons c' format =>
      unfold scanLength
      dsimp only
      split_ifs with h₁ h₂ h₃ h₄ h₅ h₆
      · exact ⟨[c, c'], by rw [h₁, h₂]; decide, rfl⟩
      · exact ⟨[c], by rw [h₁]; decide, rfl⟩
      · exact ⟨[c], by rcases h₃ with h₃ | h₃ <;> rw [h₃] <;> decide, rfl⟩
      · exact ⟨[c], by rw [h₄]; decide, rfl⟩
      · exact ⟨[c, c'], by rw [h₅, h₆]; decide, rfl⟩
      · exact ⟨[c], by rw [h₅]; decide, rfl⟩
      · exact ⟨[], by decide, rfl⟩

theorem scanConversion_split (format : List UInt8) :
    ∃ text, format = text ++ (scanConversion format).2 ∧ text.length ≤ 1 := by
  cases format with
  | nil => exact ⟨[], rfl, Nat.zero_le 1⟩
  | cons c format =>
    rw [scanConversion]
    split_ifs with h
    · exact ⟨[], by rw [h, List.nil_append], Nat.zero_le 1⟩
    · exact ⟨[c], rfl, le_refl 1⟩

/-- What a round passes behind a percent sign is a directive. -/
theorem directiveDemands_split (format : List UInt8) :
    ∃ text, format = text ++ (directiveDemands format).2 ∧ IsDirective (chr '%' :: text) := by
  unfold directiveDemands
  dsimp only
  obtain ⟨flags, hflags, hall⟩ := scanFlags_split ⟨false, false, false, false, false⟩ format
  generalize (scanFlags ⟨false, false, false, false, false⟩ format).2 = l at *
  obtain ⟨width, hwidth, hiswidth⟩ := afterWidth_split l
  generalize (afterWidth l).2 = l₁ at *
  obtain ⟨precision, hprecision, hisprecision⟩ := afterPrecision_split l₁
  generalize (afterPrecision l₁).2 = l₂ at *
  obtain ⟨modifier, hmodifier, hlength⟩ := scanLength_split l₂
  generalize (scanLength l₂).2 = l₃ at *
  obtain ⟨conversion, hconversion, hone⟩ := scanConversion_split l₃
  generalize (scanConversion l₃).2 = l₄ at *
  refine ⟨flags ++ (width ++ (precision ++ (modifier ++ conversion))), ?_, flags, width, precision,
    modifier, conversion, rfl, hall, hiswidth, hisprecision, hmodifier, hone⟩
  rw [hflags, hwidth, hprecision, hlength, hconversion]
  simp only [List.append_assoc]

end Grammar

section Arguments

variable {args args' args'' taken taken' : List Argument} {ks ks' : List ArgumentKind}
variable {k : ArgumentKind}

/-- The arguments that are taken from the front, and their kinds. -/
structure Taken (ks : List ArgumentKind) (args taken args' : List Argument) : Prop where
  split : args = taken ++ args'
  kinds : taken.map kind = ks

theorem Taken.none (args : List Argument) : Taken [] args [] args := ⟨rfl, rfl⟩

theorem Taken.trans (h : Taken ks args taken args') (h' : Taken ks' args' taken' args'') :
    Taken (ks ++ ks') args (taken ++ taken') args'' := by
  refine ⟨?_, ?_⟩
  · rw [h.split, h'.split, List.append_assoc]
  · rw [List.map_append, h.kinds, h'.kinds]

theorem takeInt_taken {value : ℤ} (h : takeInt args = some (value, args')) :
    ∃ taken, Taken [.int] args taken args' ∧ ∀ bs, takeInt (taken ++ bs) = some (value, bs) := by
  cases args with
  | nil => cases h
  | cons a args =>
    cases a with
    | int word =>
      cases h
      exact ⟨[.int word], ⟨rfl, rfl⟩, fun bs => rfl⟩
    | _ => cases h

theorem kinds_cons (h : [k] <+: args.map kind) : ∃ a, args = a :: args.drop 1 ∧ kind a = k := by
  obtain ⟨t, ht⟩ := h
  cases args with
  | nil => cases ht
  | cons a args =>
    rw [List.map_cons, List.singleton_append, List.cons.injEq] at ht
    exact ⟨a, rfl, ht.1.symm⟩

theorem kinds_append (h : ks ++ ks' <+: args.map kind) :
    ks <+: args.map kind ∧ ks' <+: (args.drop ks.length).map kind := by
  obtain ⟨t, ht⟩ := h
  refine ⟨⟨ks' ++ t, by rw [← ht, List.append_assoc]⟩, t, ?_⟩
  rw [List.map_drop, ← ht, List.append_assoc, List.drop_left]

theorem takeInt_eq (h : [.int] <+: args.map kind) :
    ∃ value, takeInt args = some (value, args.drop 1) := by
  obtain ⟨a, hargs, ha⟩ := kinds_cons h
  rw [hargs]
  cases a with
  | int value => exact ⟨value.toInt, rfl⟩
  | _ => cases ha

theorem takeSigned_eq (modifier : LengthModifier)
    (h : [if modifier = .default then .int else .long] <+: args.map kind) :
    ∃ value, takeSigned modifier args = some (value, args.drop 1) := by
  obtain ⟨a, hargs, ha⟩ := kinds_cons h
  rw [hargs]
  cases modifier <;> cases a <;> first | exact ⟨_, rfl⟩ | cases ha

theorem takeUnsigned_eq (modifier : LengthModifier)
    (h : [if modifier = .default then .int else .long] <+: args.map kind) :
    ∃ value, takeUnsigned modifier args = some (value, args.drop 1) := by
  obtain ⟨a, hargs, ha⟩ := kinds_cons h
  rw [hargs]
  cases modifier <;> cases a <;> first | exact ⟨_, rfl⟩ | cases ha

/-- A conversion finds its argument. -/
theorem convert_eq (d : Directive)
    (h : conversionDemands d.modifier d.conversion <+: args.map kind) :
    ∃ converted, convert d args =
      some (converted, args.drop (conversionDemands d.modifier d.conversion).length) := by
  unfold conversionDemands at *
  unfold convert
  by_cases hs : d.conversion = chr 's'
  · rw [if_pos hs] at h
    simp only [if_pos hs]
    obtain ⟨a, hargs, ha⟩ := kinds_cons h
    rw [hargs]
    cases a with
    | string text => exact ⟨_, rfl⟩
    | _ => cases ha
  rw [if_neg hs] at h
  simp only [if_neg hs]
  by_cases hc : d.conversion = chr 'c'
  · rw [if_pos hc] at h
    simp only [if_pos hc]
    obtain ⟨value, hvalue⟩ := takeInt_eq h
    exact ⟨_, by rw [hvalue]; rfl⟩
  rw [if_neg hc] at h
  simp only [if_neg hc]
  by_cases hd : d.conversion = chr 'd' ∨ d.conversion = chr 'i'
  · rw [if_pos (.inl hd)] at h
    simp only [if_pos hd, if_pos (Or.inl hd)]
    obtain ⟨value, hvalue⟩ := takeSigned_eq d.modifier h
    exact ⟨_, by rw [hvalue]; rfl⟩
  simp only [if_neg hd]
  by_cases hu : d.conversion ∈ ascii "uxXo"
  · rw [if_pos (.inr hu)] at h
    simp only [if_pos hu, if_pos (Or.inr hu)]
    obtain ⟨value, hvalue⟩ := takeUnsigned_eq d.modifier h
    exact ⟨_, by rw [hvalue]; rfl⟩
  rw [if_neg (not_or.mpr ⟨hd, hu⟩)] at h
  simp only [if_neg hu, if_neg (not_or.mpr ⟨hd, hu⟩)]
  by_cases hp : d.conversion = chr 'p'
  · rw [if_pos hp] at h
    simp only [if_pos hp]
    obtain ⟨a, hargs, ha⟩ := kinds_cons h
    rw [hargs]
    cases a with
    | pointer address => exact ⟨_, rfl⟩
    | _ => cases ha
  rw [if_neg hp] at h
  simp only [if_neg hp]
  by_cases hf : isFloating d.conversion
  · rw [if_pos hf] at h
    simp only [if_pos hf]
    obtain ⟨a, hargs, ha⟩ := kinds_cons h
    rw [hargs]
    cases a with
    | double value => exact ⟨_, rfl⟩
    | _ => cases ha
  simp only [if_neg hf]
  exact ⟨_, rfl⟩

/-- A string that is converted is an argument. -/
theorem convert_string {d : Directive} {text : Option (List UInt8)} {args' : List Argument}
    (h : convert d args = some (.string text, args')) : .string text ∈ args := by
  unfold convert at h
  split_ifs at h
  · split at h
    · cases h
      exact List.mem_cons_self
    · cases h
  · obtain ⟨taken, -, h⟩ := Option.map_eq_some_iff.mp h
    cases h
  · obtain ⟨taken, -, h⟩ := Option.map_eq_some_iff.mp h
    cases h
  · obtain ⟨taken, -, h⟩ := Option.map_eq_some_iff.mp h
    cases h
  · split at h <;> cases h
  · split at h <;> cases h
  · cases h

end Arguments

section Scanners

variable {int int' : ℤ → Option ℤ} {l l' : List UInt8} {args args' : List Argument}
variable (g : List UInt8)

/-- Where `int` has a result, `int'` has the same. -/
def Extends (int int' : ℤ → Option ℤ) : Prop := ∀ v w, int v = some w → int' v = some w

theorem Extends.refl (int : ℤ → Option ℤ) : Extends int int := fun _ _ h => h

/-- Behind the rest `l'` a scanner does not go on with `g`: it has stopped at a byte, or the NUL
stops it. -/
def Stops (l' g : List UInt8) : Prop := l' ≠ [] ∨ g.head? = some 0

theorem Stops.cons_zero (h : Stops [] g) : ∃ g', g = 0 :: g' := by
  have hhead := h.resolve_left fun hne => hne rfl
  exact ⟨g.tail, (List.cons_head?_tail hhead).symm⟩

theorem scanFlags_append (flags : Flags) (h : Stops (scanFlags flags l).2 g) :
    scanFlags flags (l ++ g) = ((scanFlags flags l).1, (scanFlags flags l).2 ++ g) := by
  induction l generalizing flags with
  | nil =>
    obtain ⟨g', rfl⟩ := h.cons_zero
    rfl
  | cons c l ih =>
    rw [List.cons_append]
    unfold scanFlags at h ⊢
    split_ifs at h ⊢ with h₁ h₂ h₃ h₄ h₅
    · exact ih _ h
    · exact ih _ h
    · exact ih _ h
    · exact ih _ h
    · exact ih _ h
    · rfl

theorem scanNumber_append (hint : Extends int int') {n m : ℤ}
    (h : scanNumber int n l = some (m, l')) :
    l' = l.dropWhile isDigit ∧ (Stops l' g → scanNumber int' n (l ++ g) = some (m, l' ++ g)) := by
  induction l generalizing n with
  | nil =>
    cases h
    refine ⟨rfl, fun hstop => ?_⟩
    obtain ⟨g', rfl⟩ := hstop.cons_zero
    rfl
  | cons c l ih =>
    rw [List.cons_append]
    unfold scanNumber at h ⊢
    split_ifs at h ⊢ with hdigit
    · obtain ⟨ten, hten, h⟩ := Option.bind_eq_some_iff.mp h
      obtain ⟨sum, hsum, h⟩ := Option.bind_eq_some_iff.mp h
      obtain ⟨hrest, happend⟩ := ih h
      refine ⟨?_, fun hstop => ?_⟩
      · rw [List.dropWhile_cons_of_pos (show isDigit c by simpa [isDigit] using hdigit), hrest]
      · rw [hint _ _ hten, Option.bind_some, hint _ _ hsum, Option.bind_some]
        exact happend hstop
    · cases h
      exact ⟨(List.dropWhile_cons_of_neg (by simpa [isDigit] using hdigit)).symm, fun _ => rfl⟩

theorem scanWidth_append (hint : Extends int int') {flags flags' : Flags} {width : ℤ}
    (h : scanWidth int flags l args = some (width, flags', l', args')) :
    ∃ taken, Taken (afterWidth l).1 args taken args' ∧ l' = (afterWidth l).2 ∧
      (Stops l' g → ∀ bs, scanWidth int' flags (l ++ g) (taken ++ bs) =
        some (width, flags', l' ++ g, bs)) := by
  cases l with
  | nil =>
    cases h
    refine ⟨[], .none _, rfl, fun hstop bs => ?_⟩
    obtain ⟨g', rfl⟩ := hstop.cons_zero
    rfl
  | cons c l =>
    rw [List.cons_append]
    unfold scanWidth at h ⊢
    unfold afterWidth
    dsimp only at h ⊢
    by_cases hc : c = chr '*'
    · simp only [if_pos hc] at h ⊢
      obtain ⟨⟨value, rest⟩, htake, h⟩ := Option.bind_eq_some_iff.mp h
      obtain ⟨taken, htaken, hagain⟩ := takeInt_taken htake
      dsimp only at h
      split_ifs at h with hneg
      · obtain ⟨negated, hnegated, heq⟩ := Option.map_eq_some_iff.mp h
        cases heq
        exact ⟨taken, htaken, rfl, fun _ bs => by rw [hagain]; simp [hneg, hint _ _ hnegated]⟩
      · cases h
        exact ⟨taken, htaken, rfl, fun _ bs => by rw [hagain]; simp [hneg]⟩
    · simp only [if_neg hc] at h ⊢
      obtain ⟨⟨number, rest⟩, hnumber, heq⟩ := Option.map_eq_some_iff.mp h
      cases heq
      obtain ⟨hrest, happend⟩ := scanNumber_append g hint hnumber
      refine ⟨[], .none _, hrest, fun hstop bs => ?_⟩
      rw [← List.cons_append, happend hstop, Option.map_some, List.nil_append]

theorem scanPrecision_append (hint : Extends int int') {precision : ℤ}
    (h : scanPrecision int l args = some (precision, l', args')) :
    ∃ taken, Taken (afterPrecision l).1 args taken args' ∧ l' = (afterPrecision l).2 ∧
      (Stops l' g → ∀ bs, scanPrecision int' (l ++ g) (taken ++ bs) =
        some (precision, l' ++ g, bs)) := by
  cases l with
  | nil =>
    cases h
    refine ⟨[], .none _, rfl, fun hstop bs => ?_⟩
    obtain ⟨g', rfl⟩ := hstop.cons_zero
    rfl
  | cons c l =>
    rw [List.cons_append]
    unfold scanPrecision at h ⊢
    unfold afterPrecision
    dsimp only at h ⊢
    by_cases hdot : c = chr '.'
    · simp only [if_pos hdot] at h ⊢
      cases l with
      | nil =>
        cases h
        refine ⟨[], .none _, rfl, fun hstop bs => ?_⟩
        obtain ⟨g', rfl⟩ := hstop.cons_zero
        rfl
      | cons c l =>
        rw [List.cons_append]
        unfold afterWidth
        dsimp only at h ⊢
        by_cases hc : c = chr '*'
        · simp only [if_pos hc] at h ⊢
          obtain ⟨⟨value, rest⟩, htake, heq⟩ := Option.map_eq_some_iff.mp h
          cases heq
          obtain ⟨taken, htaken, hagain⟩ := takeInt_taken htake
          exact ⟨taken, htaken, rfl, fun _ bs => by rw [hagain, Option.map_some]⟩
        · simp only [if_neg hc] at h ⊢
          obtain ⟨⟨number, rest⟩, hnumber, heq⟩ := Option.map_eq_some_iff.mp h
          cases heq
          obtain ⟨hrest, happend⟩ := scanNumber_append g hint hnumber
          refine ⟨[], .none _, hrest, fun hstop bs => ?_⟩
          rw [← List.cons_append, happend hstop, Option.map_some, List.nil_append]
    · simp only [if_neg hdot] at h ⊢
      cases h
      exact ⟨[], .none _, rfl, fun _ bs => rfl⟩

theorem scanLength_append (h : Stops (scanLength l).2 g) :
    scanLength (l ++ g) = ((scanLength l).1, (scanLength l).2 ++ g) := by
  cases l with
  | nil =>
    obtain ⟨g', rfl⟩ := h.cons_zero
    rfl
  | cons c l =>
    cases l with
    | nil =>
      rw [List.singleton_append]
      unfold scanLength at h ⊢
      dsimp only at h ⊢
      split_ifs at h ⊢
      · obtain ⟨g', rfl⟩ := h.cons_zero
        rfl
      · rfl
      · rfl
      · obtain ⟨g', rfl⟩ := h.cons_zero
        rfl
      · rfl
    | cons c' l =>
      rw [List.cons_append, List.cons_append]
      unfold scanLength
      dsimp only
      split_ifs <;> rfl

theorem scanConversion_append (h : (scanConversion l).1 ≠ 0 ∨ g.head? = some 0) :
    scanConversion (l ++ g) = ((scanConversion l).1, (scanConversion l).2 ++ g) := by
  cases l with
  | nil =>
    obtain ⟨g', rfl⟩ := Stops.cons_zero g (.inr (h.resolve_left fun hne => hne rfl))
    rfl
  | cons c l =>
    rw [List.cons_append]
    unfold scanConversion
    dsimp only
    split_ifs <;> rfl

end Scanners

section Reading

variable {overflow : ℤ → BitVec 32} {l : List UInt8} {args : List Argument}

theorem readable_append (l : List UInt8) : readable (l ++ [0]) = some (l ++ [0]) :=
  if_neg (List.append_ne_nil_of_right_ne_nil _ (List.cons_ne_nil _ _))

/-- The digits are passed, whatever number they give. -/
theorem scanNumber_unchecked (overflow : ℤ → BitVec 32) (number : ℤ) (l : List UInt8) :
    ∃ number', scanNumber (uncheckedInt32 overflow) number (l ++ [0]) =
      some (number', l.dropWhile isDigit ++ [0]) := by
  induction l generalizing number with
  | nil => exact ⟨number, rfl⟩
  | cons c l ih =>
    rw [List.cons_append, scanNumber]
    by_cases hdigit : chr '0' ≤ c ∧ c ≤ chr '9'
    · rw [if_pos hdigit, List.dropWhile_cons_of_pos (show isDigit c by simpa [isDigit] using hdigit)]
      exact ih _
    · rw [if_neg hdigit, List.dropWhile_cons_of_neg (by simpa [isDigit] using hdigit)]
      exact ⟨number, rfl⟩

theorem scanWidth_unchecked (overflow : ℤ → BitVec 32) (flags : Flags)
    (h : (afterWidth l).1 <+: args.map kind) :
    ∃ width flags', scanWidth (uncheckedInt32 overflow) flags (l ++ [0]) args =
      some (width, flags', (afterWidth l).2 ++ [0], args.drop (afterWidth l).1.length) := by
  cases l with
  | nil => exact ⟨0, flags, rfl⟩
  | cons c l =>
    rw [afterWidth] at h ⊢
    rw [List.cons_append, scanWidth]
    by_cases hstar : c = chr '*'
    · rw [if_pos hstar] at h ⊢
      obtain ⟨value, hvalue⟩ := takeInt_eq h
      rw [if_pos hstar, hvalue, Option.bind_some]
      dsimp only
      split_ifs
      · exact ⟨_, _, rfl⟩
      · exact ⟨_, _, rfl⟩
    · rw [if_neg hstar, if_neg hstar]
      obtain ⟨number, hnumber⟩ := scanNumber_unchecked overflow 0 (c :: l)
      rw [List.cons_append] at hnumber
      rw [hnumber]
      exact ⟨number, flags, rfl⟩

/-- Behind a point a precision is written as a width is. -/
theorem scanPrecision_unchecked (overflow : ℤ → BitVec 32)
    (h : (afterPrecision l).1 <+: args.map kind) :
    ∃ precision, scanPrecision (uncheckedInt32 overflow) (l ++ [0]) args =
      some (precision, (afterPrecision l).2 ++ [0], args.drop (afterPrecision l).1.length) := by
  cases l with
  | nil => exact ⟨-1, rfl⟩
  | cons c l =>
    rw [afterPrecision] at h ⊢
    unfold scanPrecision
    dsimp only [List.cons_append]
    by_cases hpoint : c = chr '.'
    · rw [if_pos hpoint] at h ⊢
      rw [if_pos hpoint]
      cases l with
      | nil => exact ⟨0, rfl⟩
      | cons c l =>
        rw [afterWidth] at h ⊢
        dsimp only [List.cons_append]
        by_cases hstar : c = chr '*'
        · rw [if_pos hstar] at h ⊢
          obtain ⟨value, hvalue⟩ := takeInt_eq h
          rw [if_pos hstar, hvalue]
          exact ⟨value, rfl⟩
        · rw [if_neg hstar, if_neg hstar]
          obtain ⟨number, hnumber⟩ := scanNumber_unchecked overflow 0 (c :: l)
          rw [List.cons_append] at hnumber
          rw [hnumber]
          exact ⟨number, rfl⟩
    · rw [if_neg hpoint, if_neg hpoint]
      exact ⟨-1, rfl⟩

/-- A directive is read from its width and its precision. -/
theorem readDirective_of_scans {l₁ l₂ : List UInt8} {args₁ args₂ : List Argument} {flags : Flags}
    {width precision : ℤ}
    (hwidth : scanWidth (uncheckedInt32 overflow)
      (scanFlags ⟨false, false, false, false, false⟩ l).1
      ((scanFlags ⟨false, false, false, false, false⟩ l).2 ++ [0]) args =
        some (width, flags, l₁ ++ [0], args₁))
    (hprecision : scanPrecision (uncheckedInt32 overflow) (l₁ ++ [0]) args₁ =
      some (precision, l₂ ++ [0], args₂)) :
    readDirective overflow (l ++ [0]) args =
      some (⟨flags, width, precision, (scanLength l₂).1, (scanConversion (scanLength l₂).2).1⟩,
        (scanConversion (scanLength l₂).2).2 ++ [0], args₂) := by
  unfold readDirective
  rw [scanFlags_append [0] _ (.inr rfl)]
  dsimp only
  rw [readable_append, Option.bind_some, hwidth, Option.bind_some]
  dsimp only
  rw [readable_append, Option.bind_some, hprecision, Option.bind_some]
  dsimp only
  rw [readable_append, Option.bind_some, scanLength_append [0] (.inr rfl)]
  dsimp only
  rw [readable_append, Option.map_some, scanConversion_append [0] (.inr rfl)]

theorem readDirective_eq (overflow : ℤ → BitVec 32)
    (h : (directiveDemands l).1 <+: args.map kind) :
    ∃ d args', readDirective overflow (l ++ [0]) args =
        some (d, (directiveDemands l).2 ++ [0], args') ∧
      conversionDemands d.modifier d.conversion <+: args'.map kind ∧ args' <:+ args ∧
      args'.drop (conversionDemands d.modifier d.conversion).length =
        args.drop (directiveDemands l).1.length := by
  unfold directiveDemands at h
  dsimp only at h
  obtain ⟨hwidth, hrest⟩ := kinds_append h
  obtain ⟨hprecision, hconversion⟩ := kinds_append hrest
  obtain ⟨width, flags, hscanwidth⟩ := scanWidth_unchecked overflow
    (scanFlags ⟨false, false, false, false, false⟩ l).1 hwidth
  obtain ⟨precision, hscanprecision⟩ := scanPrecision_unchecked overflow hprecision
  refine ⟨_, _, readDirective_of_scans hscanwidth hscanprecision, hconversion,
    (List.drop_suffix _ _).trans (List.drop_suffix _ _), ?_⟩
  unfold directiveDemands
  simp only [List.drop_drop, List.length_append, Nat.add_assoc]

end Reading

section Strings

theorem strlen_of_mem {text : List UInt8} (h : 0 ∈ text) : ∃ length, strlen text = some length := by
  induction text with
  | nil => exact absurd h List.not_mem_nil
  | cons c text ih =>
    rw [strlen]
    split_ifs with hc
    · exact ⟨0, rfl⟩
    · have hmem : 0 ∈ text := (List.mem_cons.mp h).resolve_left fun heq => hc heq.symm
      obtain ⟨length, hlength⟩ := ih hmem
      exact ⟨length + 1, by rw [hlength, Option.map_some]⟩

theorem putConverted_eq (overflow : ℤ → BitVec 32) (d : Directive) {converted : Converted}
    (h : ∀ text, converted = .string (some text) → 0 ∈ text) :
    ∃ printed, putConverted overflow d converted = some printed := by
  cases converted with
  | string text =>
    have hmem : 0 ∈ text.getD (ascii "(null)" ++ [0]) := by
      cases text with
      | none => decide
      | some text => exact h text rfl
    obtain ⟨length, hlength⟩ := strlen_of_mem hmem
    exact ⟨_, by
      dsimp only [putConverted, putString]
      rw [hlength, Option.map_some]⟩
  | field fieldPrefix temporary => exact ⟨_, rfl⟩
  | other => exact ⟨_, rfl⟩

end Strings

section Rounds

variable {overflow : ℤ → BitVec 32} {l : List UInt8} {args : List Argument}

/-- What a round passes and prints: a byte that is no percent sign, two percent signs, or a
directive. -/
inductive Passed : Round → Prop where
  | byte {c : UInt8} (h : c ≠ chr '%') : Passed ⟨[c], [c]⟩
  | percent : Passed ⟨[chr '%', chr '%'], [chr '%']⟩
  | directive {text printed : List UInt8} (h : IsDirective text) : Passed ⟨text, printed⟩

theorem Passed.text_ne_nil {r : Round} (h : Passed r) : r.text ≠ [] := by
  cases h with
  | byte => exact List.cons_ne_nil _ _
  | percent => exact List.cons_ne_nil _ _
  | directive h =>
    obtain ⟨_, _, _, _, _, htext, -⟩ := h
    rw [htext]
    exact List.cons_ne_nil _ _

theorem advance_eq (text l : List UInt8) (args args' : List Argument) (rounds : List Round)
    (printed : List UInt8) :
    FormatState.advance ⟨text ++ (l ++ [0]), args, rounds⟩ (l ++ [0]) args' printed =
      ⟨l ++ [0], args', rounds ++ [⟨text, printed⟩]⟩ := by
  unfold FormatState.advance
  dsimp only
  rw [@List.length_append _ text, Nat.add_sub_cancel, List.take_left]

/-- Behind a percent sign the directive is read, its argument converted, and the field put. -/
theorem directive_round (overflow : ℤ → BitVec 32) (rounds : List Round)
    (hkinds : (directiveDemands l).1 ++ demands (directiveDemands l).2 <+: args.map kind)
    (hterminated : ∀ a ∈ args, Terminated a) : ∃ l' args' r,
      ((readDirective overflow (l ++ [0]) args).bind fun (d, format, args') =>
        (convertIn d args').bind fun (converted, args') =>
          (putConverted overflow d converted).map fun printed =>
            FormatState.advance ⟨chr '%' :: (l ++ [0]), args, rounds⟩ format args' printed) =
        some ⟨l' ++ [0], args', rounds ++ [r]⟩ ∧
      chr '%' :: l = r.text ++ l' ∧ Passed r ∧ Matching l' args' := by
  obtain ⟨hdirective, hrest⟩ := kinds_append hkinds
  obtain ⟨d, args₁, hread, hconversion, hsuffix, hdrop⟩ := readDirective_eq overflow hdirective
  obtain ⟨converted, hconvert⟩ := convert_eq d hconversion
  have hstring (text : List UInt8) (htext : converted = .string (some text)) : 0 ∈ text := by
    rw [htext] at hconvert
    exact hterminated _ (hsuffix.subset (convert_string hconvert))
  obtain ⟨printed, hprinted⟩ := putConverted_eq overflow d hstring
  obtain ⟨text, htext, hgrammar⟩ := directiveDemands_split l
  have hformat : chr '%' :: (l ++ [0]) =
      (chr '%' :: text) ++ ((directiveDemands l).2 ++ [0]) := by
    rw [List.cons_append, ← List.append_assoc, ← htext]
  refine ⟨(directiveDemands l).2, args.drop (directiveDemands l).1.length,
    ⟨chr '%' :: text, printed⟩, ?_, congrArg (chr '%' :: ·) htext, .directive hgrammar, hrest,
    fun a ha => hterminated a (List.mem_of_mem_drop ha)⟩
  rw [hread, Option.bind_some]
  dsimp only
  rw [convertIn_eq, hconvert, Option.bind_some]
  dsimp only
  rw [hprinted, Option.map_some, hdrop, hformat, advance_eq]

/-- A round passes bytes of the format, and never the NUL. -/
theorem formatRound_eq (overflow : ℤ → BitVec 32) (hl : l ≠ []) (h : Matching l args)
    (rounds : List Round) : ∃ l' args' r,
      formatRound overflow ⟨l ++ [0], args, rounds⟩ = some ⟨l' ++ [0], args', rounds ++ [r]⟩ ∧
      l = r.text ++ l' ∧ Passed r ∧ Matching l' args' := by
  obtain ⟨hkinds, hterminated⟩ := h
  cases l with
  | nil => exact absurd rfl hl
  | cons c l =>
    rw [demands] at hkinds
    unfold formatRound
    dsimp only [List.cons_append]
    by_cases hplain : c ≠ chr '%'
    · rw [if_pos hplain] at hkinds ⊢
      exact ⟨l, args, ⟨[c], [c]⟩, congrArg some (advance_eq [c] l args args rounds [c]), rfl,
        .byte hplain, hkinds, hterminated⟩
    rw [if_neg hplain] at hkinds ⊢
    obtain rfl : c = chr '%' := not_not.mp hplain
    cases l with
    | nil => exact directive_round overflow rounds hkinds hterminated
    | cons c l =>
      dsimp only [List.cons_append, List.head?_cons, Option.bind_some, List.tail_cons]
      simp only [List.head?_cons, Option.some.injEq] at hkinds
      by_cases hnext : c = chr '%'
      · rw [if_pos hnext] at hkinds
        rw [if_pos hnext, hnext]
        exact ⟨l, args, ⟨[chr '%', chr '%'], [chr '%']⟩,
          congrArg some (advance_eq [chr '%', chr '%'] l args args rounds [chr '%']), rfl,
          .percent, hkinds, hterminated⟩
      · rw [if_neg hnext] at hkinds
        rw [if_neg hnext]
        exact directive_round overflow rounds hkinds hterminated

theorem formatRounds_succ {overflow : ℤ → BitVec 32} {c : UInt8} (hc : c ≠ 0) {rounds : List Round}
    {s : FormatState} (h : formatRound overflow ⟨c :: l ++ [0], args, rounds⟩ = some s) (n : ℕ) :
    formatRounds overflow (n + 1) ⟨c :: l ++ [0], args, rounds⟩ = formatRounds overflow n s := by
  rw [formatRounds]
  dsimp only [List.cons_append, List.head?_cons, Option.bind_some]
  rw [if_neg hc, ← List.cons_append, h, Option.bind_some]

/-- The rounds come to the NUL before the number of bytes is used up. -/
theorem formatRounds_run (overflow : ℤ → BitVec 32) {n : ℕ} (hn : l.length < n) (hbody : 0 ∉ l)
    (h : Matching l args) (rounds : List Round) : ∃ s rs,
      formatRounds overflow n ⟨l ++ [0], args, rounds⟩ = some s ∧ s.format = [0] ∧
      s.rounds = rounds ++ rs ∧ rs.flatMap Round.text = l ∧ ∀ r ∈ rs, Passed r := by
  induction n generalizing l args rounds with
  | zero => exact absurd hn (Nat.not_lt_zero _)
  | succ n ih =>
    cases l with
    | nil => exact ⟨_, [], rfl, rfl, (List.append_nil _).symm, rfl, fun r hr => by cases hr⟩
    | cons c l =>
      have hc : c ≠ 0 := fun heq => hbody (heq ▸ List.mem_cons_self)
      obtain ⟨l', args', r, hround, hsplit, hpassed, hmatching⟩ :=
        formatRound_eq overflow (List.cons_ne_nil c l) h rounds
      have hlength := congrArg List.length hsplit
      rw [List.length_append] at hlength
      have hpos := List.length_pos_of_ne_nil hpassed.text_ne_nil
      have hbody' : 0 ∉ l' := fun hmem => hbody (hsplit ▸ List.mem_append_right _ hmem)
      obtain ⟨s, rs, hs, hformat, hrounds, htext, hall⟩ :=
        ih (by omega) hbody' hmatching (rounds ++ [r])
      refine ⟨s, r :: rs, (formatRounds_succ hc hround n).trans hs, hformat, ?_, ?_, ?_⟩
      · rw [hrounds, List.append_assoc, List.singleton_append]
      · rw [List.flatMap_cons, htext, ← hsplit]
      · intro r' hr'
        cases hr' with
        | head => exact hpassed
        | tail _ hr' => exact hall r' hr'

end Rounds

/-! Where nothing overflows the rounds print the text of the format. -/

section Agreement

variable {l l' : List UInt8} {args args' : List Argument}

theorem signed_eq (overflow : ℤ → BitVec 32) {v w : ℤ} (h : checkInt32 v = some w) :
    signed overflow v = w := by
  unfold signed
  rw [h, Option.getD_some]

theorem uncheckedInt32_extends (overflow : ℤ → BitVec 32) :
    Extends checkInt32 (uncheckedInt32 overflow) :=
  fun _ _ h => congrArg some (signed_eq overflow h)

theorem readDirective_scan (overflow : ℤ → BitVec 32) {d : Directive}
    (h : scanDirective checkInt32 l args = some (d, l', args')) :
    readDirective overflow (l ++ [0]) args = some (d, l' ++ [0], args') := by
  unfold scanDirective at h
  obtain ⟨⟨width, flags, l₁, args₁⟩, hwidth, h⟩ := Option.bind_eq_some_iff.mp h
  obtain ⟨⟨precision, l₂, args₂⟩, hprecision, h⟩ := Option.map_eq_some_iff.mp h
  cases h
  have hint := uncheckedInt32_extends overflow
  obtain ⟨taken, htaken, -, hwidth'⟩ := scanWidth_append [0] hint hwidth
  obtain ⟨taken', htaken', -, hprecision'⟩ := scanPrecision_append [0] hint hprecision
  rw [htaken.split, htaken'.split]
  exact readDirective_of_scans (hwidth' (.inr rfl) _) (hprecision' (.inr rfl) _)

theorem paddingOf_eq (overflow : ℤ → BitVec 32) {width padding : ℤ} {length : ℕ}
    (h : fieldPadding width length = some padding) :
    paddingOf overflow width length = padding := by
  unfold fieldPadding at h
  unfold paddingOf
  split_ifs at h ⊢
  · exact signed_eq overflow h
  · exact Option.some.inj h

theorem putConverted_text (overflow : ℤ → BitVec 32) {d : Directive} {converted : Converted}
    {text : List UInt8} (h : convertedText d converted = some text) :
    putConverted overflow d converted = some text := by
  cases converted with
  | string bytes =>
    obtain ⟨length, hlength, h⟩ := Option.bind_eq_some_iff.mp h
    obtain ⟨padding, hpadding, htext⟩ := Option.map_eq_some_iff.mp h
    dsimp only [putConverted, putString]
    rw [hlength, Option.map_some, paddingOf_eq overflow hpadding, htext]
  | field fieldPrefix temporary =>
    obtain ⟨padding, hpadding, htext⟩ := Option.map_eq_some_iff.mp h
    dsimp only [putConverted, putField]
    rw [paddingOf_eq overflow hpadding, htext]
  | other => exact h

/-- A round that prints, before rounds that print the rest. -/
theorem formatRounds_before {overflow : ℤ → BitVec 32} {c : UInt8} (hc : c ≠ 0)
    {printed text : List UInt8} {n : ℕ} (hn : (c :: l).length < n) {rounds : List Round}
    (hround : formatRound overflow ⟨c :: l ++ [0], args, rounds⟩ =
      some (FormatState.advance ⟨c :: l ++ [0], args, rounds⟩ (l' ++ [0]) args' printed))
    (hrest : ∀ (n : ℕ) (rounds : List Round), l'.length < n → ∃ s rs,
      formatRounds overflow n ⟨l' ++ [0], args', rounds⟩ = some s ∧
      s.rounds = rounds ++ rs ∧ rs.flatMap Round.printed = text) (hl : l'.length ≤ l.length) :
    ∃ s rs, formatRounds overflow n ⟨c :: l ++ [0], args, rounds⟩ = some s ∧
      s.rounds = rounds ++ rs ∧ rs.flatMap Round.printed = printed ++ text := by
  obtain ⟨n, rfl⟩ : ∃ m, n = m + 1 := ⟨n - 1, by omega⟩
  rw [List.length_cons] at hn
  obtain ⟨r, hadvance, hprinted⟩ : ∃ r,
      FormatState.advance ⟨c :: l ++ [0], args, rounds⟩ (l' ++ [0]) args' printed =
        ⟨l' ++ [0], args', rounds ++ [r]⟩ ∧ r.printed = printed := ⟨_, rfl, rfl⟩
  rw [hadvance] at hround
  obtain ⟨s, rs, hs, hrounds, htext⟩ := hrest n (rounds ++ [r]) (by omega)
  refine ⟨s, r :: rs, (formatRounds_succ hc hround n).trans hs, ?_, ?_⟩
  · rw [hrounds, List.append_assoc, List.singleton_append]
  · rw [List.flatMap_cons, htext, hprinted]

theorem formatRounds_text (overflow : ℤ → BitVec 32) {text : List UInt8}
    (h : formatText l args = some text) (n : ℕ) (rounds : List Round) (hn : l.length < n) :
    ∃ s rs,
      formatRounds overflow n ⟨l ++ [0], args, rounds⟩ = some s ∧
      s.rounds = rounds ++ rs ∧ rs.flatMap Round.printed = text := by
  fun_induction formatText l args generalizing text n rounds with
  | case1 args =>
    cases h
    obtain ⟨n, rfl⟩ : ∃ m, n = m + 1 := ⟨n - 1, by omega⟩
    exact ⟨_, [], rfl, (List.append_nil _).symm, rfl⟩
  | case2 args format =>
    cases h
    obtain ⟨n, rfl⟩ : ∃ m, n = m + 1 := ⟨n - 1, by omega⟩
    exact ⟨_, [], rfl, (List.append_nil _).symm, rfl⟩
  | case3 args c format hnul hplain ih =>
    obtain ⟨rest, hrest, rfl⟩ := Option.map_eq_some_iff.mp h
    refine formatRounds_before hnul hn ?_ (fun n rounds hn => ih hrest n rounds hn) (le_refl _)
    unfold formatRound
    exact if_pos hplain
  | case4 args c format hnul hpercent hnext ih =>
    obtain ⟨rest, hrest, rfl⟩ := Option.map_eq_some_iff.mp h
    cases format with
    | nil => cases hnext
    | cons c' format =>
      obtain rfl : c' = chr '%' := Option.some.inj hnext
      refine formatRounds_before hnul hn ?_ (fun n rounds hn => ih hrest n rounds hn)
        (Nat.le_succ _)
      unfold formatRound
      exact if_neg hpercent
  | case5 args c format hnul hpercent hnext hscan => cases h
  | case6 args c format hnul hpercent hnext d format' args' hscan ih =>
    obtain ⟨⟨converted, args''⟩, hconvert, h⟩ := Option.bind_eq_some_iff.mp h
    obtain ⟨printed, hprinted, h⟩ := Option.bind_eq_some_iff.mp h
    obtain ⟨rest, hrest, rfl⟩ := Option.map_eq_some_iff.mp h
    have hread := readDirective_scan overflow hscan
    have hnext' : ∃ next, (format ++ [0]).head? = some next ∧ next ≠ chr '%' := by
      cases format with
      | nil => exact ⟨0, rfl, by decide⟩
      | cons next format => exact ⟨next, rfl, fun heq => hnext (congrArg some heq)⟩
    obtain ⟨next, hhead, hne⟩ := hnext'
    refine formatRounds_before hnul hn ?_ (fun n rounds hn => ih _ hrest n rounds hn)
      (scanDirective_length hscan)
    unfold formatRound
    dsimp only [List.cons_append]
    rw [if_neg hpercent, hhead, Option.bind_some, if_neg hne, hread, Option.bind_some]
    dsimp only
    rw [convertIn_eq, hconvert, Option.bind_some]
    dsimp only
    rw [putConverted_text overflow hprinted, Option.map_some]

end Agreement

/-- For every format and argument list that match, and whatever overflows give, the main loop comes
to the NUL with no read behind it and no write outside a local buffer. Each round has passed some
bytes, together they are the format, and a byte that belongs to no directive is printed as it is. -/
theorem formatRounds_total (overflow : ℤ → BitVec 32) (body : List UInt8) (args : List Argument)
    (hbody : 0 ∉ body) (h : Matching body args) : ∃ s,
      formatRounds overflow (body.length + 1) ⟨body ++ [0], args, []⟩ = some s ∧
      s.format = [0] ∧ s.rounds.flatMap Round.text = body ∧
      (∀ r ∈ s.rounds, r.text ≠ [] ∧ Passed r) ∧
      ∀ text, formatText body args = some text → s.rounds.flatMap Round.printed = text := by
  obtain ⟨s, rs, hs, hformat, hrounds, htext, hall⟩ :=
    formatRounds_run overflow (Nat.lt_succ_self body.length) hbody h []
  rw [List.nil_append] at hrounds
  rw [← hrounds] at htext hall
  refine ⟨s, hs, hformat, htext, fun r hr => ⟨(hall r hr).text_ne_nil, hall r hr⟩, ?_⟩
  intro text hprints
  obtain ⟨s', rs', hs', hrounds', hprinted⟩ :=
    formatRounds_text overflow hprints _ [] (Nat.lt_succ_self body.length)
  rw [hs, Option.some.injEq] at hs'
  rw [hs', hrounds', List.nil_append, hprinted]

/-- The second directive is cut off behind its flags. -/
theorem formatRounds_total_truncated : ∃ s,
    formatRounds (fun _ => 0) ((ascii "a%-5.*ldb%#0").length + 1)
      ⟨ascii "a%-5.*ldb%#0" ++ [0], [.int 3, .long 7], []⟩ = some s ∧
    s.format = [0] ∧ s.rounds.flatMap Round.text = ascii "a%-5.*ldb%#0" ∧
    (∀ r ∈ s.rounds, r.text ≠ [] ∧ Passed r) ∧
    ∀ text, formatText (ascii "a%-5.*ldb%#0") [.int 3, .long 7] = some text →
      s.rounds.flatMap Round.printed = text :=
  formatRounds_total (fun _ => 0) (ascii "a%-5.*ldb%#0") [.int 3, .long 7] (by decide)
    ⟨by decide +kernel, fun a ha => by
      rcases List.mem_pair.mp ha with rfl | rfl <;> exact trivial⟩

end JsOs.FormatTotality
