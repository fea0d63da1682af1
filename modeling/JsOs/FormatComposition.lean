import JsOs.FormatTotality

/-!
# Formats one behind the other

What a directive makes of its text and its arguments does not depend on what comes behind them, as
long as the format does not end inside the directive. So two calls of `vsnprintf`, the second where
the first has ended, print what one call prints.
-/

namespace JsOs.FormatComposition

open ByteMemory MachineWords FormatModel FormatTruncation FormatTotality

section Completeness

/-- The conversion that ends a directive, or 0 if the format ends before. -/
def conversionOf (format : List UInt8) : UInt8 :=
  (scanConversion (scanLength (afterPrecision
    (afterWidth (scanFlags ⟨false, false, false, false, false⟩ format).2).2).2).2).1

/-- No directive is cut off by the end of the format. -/
def complete : List UInt8 → Bool
  | [] => true
  | c :: format =>
    if c ≠ chr '%' then complete format
    else if format.head? = some (chr '%') then complete format.tail
    else conversionOf format ≠ 0 && complete (directiveDemands format).2
termination_by format => format.length
decreasing_by
  · exact Nat.lt_succ_self _
  · rw [List.length_tail, List.length_cons]
    omega
  · exact Nat.lt_succ_of_le (directiveDemands_length format)

end Completeness

section Arguments

variable {args args' : List Argument}

theorem takeSigned_taken {modifier : LengthModifier} {value : ℤ}
    (h : takeSigned modifier args = some (value, args')) :
    ∃ taken, Taken [if modifier = .default then .int else .long] args taken args' ∧
      ∀ bs, takeSigned modifier (taken ++ bs) = some (value, bs) := by
  cases args with
  | nil => cases modifier <;> cases h
  | cons a args =>
    cases modifier <;> cases a <;> cases h <;> exact ⟨[_], ⟨rfl, rfl⟩, fun bs => rfl⟩

theorem takeUnsigned_taken {modifier : LengthModifier} {value : ℕ}
    (h : takeUnsigned modifier args = some (value, args')) :
    ∃ taken, Taken [if modifier = .default then .int else .long] args taken args' ∧
      ∀ bs, takeUnsigned modifier (taken ++ bs) = some (value, bs) := by
  cases args with
  | nil => cases modifier <;> cases h
  | cons a args =>
    cases modifier <;> cases a <;> cases h <;> exact ⟨[_], ⟨rfl, rfl⟩, fun bs => rfl⟩

/-- A conversion sees no more than its own argument. -/
theorem convert_taken {d : Directive} {converted : Converted}
    (h : convert d args = some (converted, args')) :
    ∃ taken, Taken (conversionDemands d.modifier d.conversion) args taken args' ∧
      ∀ bs, convert d (taken ++ bs) = some (converted, bs) := by
  unfold convert at h ⊢
  unfold conversionDemands
  by_cases hs : d.conversion = chr 's'
  · simp only [if_pos hs] at h ⊢
    split at h
    · rename_i text args
      cases h
      exact ⟨[.string text], ⟨rfl, rfl⟩, fun bs => rfl⟩
    · cases h
  simp only [if_neg hs] at h ⊢
  by_cases hc : d.conversion = chr 'c'
  · simp only [if_pos hc] at h ⊢
    obtain ⟨⟨value, rest⟩, htake, heq⟩ := Option.map_eq_some_iff.mp h
    cases heq
    obtain ⟨taken, htaken, hagain⟩ := takeInt_taken htake
    exact ⟨taken, htaken, fun bs => by rw [hagain, Option.map_some]⟩
  simp only [if_neg hc] at h ⊢
  by_cases hd : d.conversion = chr 'd' ∨ d.conversion = chr 'i'
  · simp only [if_pos hd, if_pos (Or.inl hd)] at h ⊢
    obtain ⟨⟨value, rest⟩, htake, heq⟩ := Option.map_eq_some_iff.mp h
    cases heq
    obtain ⟨taken, htaken, hagain⟩ := takeSigned_taken htake
    exact ⟨taken, htaken, fun bs => by rw [hagain, Option.map_some]⟩
  simp only [if_neg hd] at h ⊢
  by_cases hu : d.conversion ∈ ascii "uxXo"
  · simp only [if_pos hu, if_pos (Or.inr hu)] at h ⊢
    obtain ⟨⟨value, rest⟩, htake, heq⟩ := Option.map_eq_some_iff.mp h
    cases heq
    obtain ⟨taken, htaken, hagain⟩ := takeUnsigned_taken htake
    exact ⟨taken, htaken, fun bs => by rw [hagain, Option.map_some]⟩
  simp only [if_neg hu, if_neg (not_or.mpr ⟨hd, hu⟩)] at h ⊢
  by_cases hp : d.conversion = chr 'p'
  · simp only [if_pos hp] at h ⊢
    split at h
    · rename_i address args
      cases h
      exact ⟨[.pointer address], ⟨rfl, rfl⟩, fun bs => rfl⟩
    · cases h
  simp only [if_neg hp] at h ⊢
  by_cases hf : isFloating d.conversion
  · simp only [if_pos hf] at h ⊢
    split at h
    · rename_i value args
      cases h
      exact ⟨[.double value], ⟨rfl, rfl⟩, fun bs => rfl⟩
    · cases h
  simp only [if_neg hf] at h ⊢
  cases h
  exact ⟨[], .none _, fun bs => rfl⟩

end Arguments

section Scanners

variable {l l' : List UInt8} {args args' : List Argument} (g : List UInt8)

/-- What a directive is read as, if its conversion is there, does not depend on what comes behind. -/
theorem scanDirective_append {d : Directive}
    (h : scanDirective checkInt32 l args = some (d, l', args')) :
    ∃ ks taken, Taken ks args taken args' ∧
      directiveDemands l = (ks ++ conversionDemands d.modifier d.conversion, l') ∧
      d.conversion = conversionOf l ∧
      (d.conversion ≠ 0 → ∀ bs, scanDirective checkInt32 (l ++ g) (taken ++ bs) =
        some (d, l' ++ g, bs)) := by
  unfold scanDirective at h
  obtain ⟨⟨width, flags, l₁, args₁⟩, hwidth, h⟩ := Option.bind_eq_some_iff.mp h
  obtain ⟨⟨precision, l₂, args₂⟩, hprecision, heq⟩ := Option.map_eq_some_iff.mp h
  obtain ⟨rfl, rfl, rfl⟩ : (⟨flags, width, precision, (scanLength l₂).1,
      (scanConversion (scanLength l₂).2).1⟩ : Directive) = d ∧
      (scanConversion (scanLength l₂).2).2 = l' ∧ args₂ = args' := by
    simpa only [Prod.mk.injEq] using heq
  obtain ⟨taken₁, htaken₁, hrest₁, happend₁⟩ := scanWidth_append g (.refl checkInt32) hwidth
  obtain ⟨taken₂, htaken₂, hrest₂, happend₂⟩ := scanPrecision_append g (.refl checkInt32) hprecision
  subst hrest₁
  subst hrest₂
  refine ⟨_, taken₁ ++ taken₂, htaken₁.trans htaken₂, ?_, rfl, fun hne bs => ?_⟩
  · rw [List.append_assoc]
    rfl
  · -- each scanner has left something, since the conversion is behind it
    have hlength := scanConversion_append g (.inl hne)
    have hne₃ : (scanLength (afterPrecision
        (afterWidth (scanFlags ⟨false, false, false, false, false⟩ l).2).2).2).2 ≠ [] :=
      fun hnil => hne (by rw [hnil]; rfl)
    have hne₂ : (afterPrecision
        (afterWidth (scanFlags ⟨false, false, false, false, false⟩ l).2).2).2 ≠ [] :=
      fun hnil => hne₃ (by rw [hnil]; rfl)
    have hne₁ : (afterWidth (scanFlags ⟨false, false, false, false, false⟩ l).2).2 ≠ [] :=
      fun hnil => hne₂ (by rw [hnil]; rfl)
    have hne₀ : (scanFlags ⟨false, false, false, false, false⟩ l).2 ≠ [] :=
      fun hnil => hne₁ (by rw [hnil]; rfl)
    unfold scanDirective
    rw [scanFlags_append g _ (.inl hne₀), List.append_assoc]
    dsimp only
    rw [happend₁ (.inl hne₁), Option.bind_some]
    dsimp only
    rw [happend₂ (.inl hne₂), Option.map_some]
    dsimp only
    rw [scanLength_append g (.inl hne₃)]
    dsimp only
    rw [hlength]

end Scanners

section Texts

variable {f g : List UInt8} {as bs : List Argument} {t : List UInt8}

theorem formatText_scan {c : UInt8} {format : List UInt8} {args : List Argument} (hnul : c ≠ 0)
    (hpercent : ¬c ≠ chr '%') (hnext : ¬format.head? = some (chr '%')) :
    formatText (c :: format) args =
      (scanDirective checkInt32 format args).bind fun (d, format, args) =>
        (convert d args).bind fun (converted, args) =>
          (convertedText d converted).bind fun text => (formatText format args).map (text ++ ·) := by
  rw [formatText, if_neg hnul, if_neg hpercent, if_neg hnext]
  split
  · rename_i hscan
    rw [hscan, Option.bind_none]
  · rename_i hscan
    rw [hscan, Option.bind_some]

/-- The text of two formats, the arguments of the first in front of those of the second. -/
theorem formatText_append (hbody : 0 ∉ f) (hcomplete : complete f)
    (hcount : as.length = (demands f).length) (htext : formatText f as = some t) :
    formatText (f ++ g) (as ++ bs) = (formatText g bs).map (t ++ ·) := by
  fun_induction formatText f as generalizing t with
  | case1 args =>
    cases htext
    rw [demands, List.length_nil, List.length_eq_zero_iff] at hcount
    rw [hcount, List.nil_append, List.nil_append]
    exact Option.map_id'.symm
  | case2 args f => exact absurd List.mem_cons_self hbody
  | case3 args c f hnul hplain ih =>
    obtain ⟨u, hu, heq⟩ := Option.map_eq_some_iff.mp htext
    rw [complete, if_pos hplain] at hcomplete
    rw [demands, if_pos hplain] at hcount
    have htail := ih (List.not_mem_of_not_mem_cons hbody) hcomplete hcount hu
    rw [List.cons_append, formatText, if_neg hnul, if_pos hplain, htail, Option.map_map, ← heq]
    congr 1
  | case4 args c f hnul hpercent hnext ih =>
    obtain ⟨u, hu, heq⟩ := Option.map_eq_some_iff.mp htext
    rw [complete, if_neg hpercent, if_pos hnext] at hcomplete
    rw [demands, if_neg hpercent, if_pos hnext] at hcount
    obtain ⟨f', rfl⟩ : ∃ f', f = chr '%' :: f' := by
      cases f with
      | nil => cases hnext
      | cons c' f' =>
        rw [List.head?_cons, Option.some.injEq] at hnext
        exact ⟨f', by rw [hnext]⟩
    have htail := ih (List.not_mem_of_not_mem_cons (List.not_mem_of_not_mem_cons hbody)) hcomplete
      hcount hu
    rw [List.cons_append, List.cons_append, formatText, if_neg hnul, if_neg hpercent,
      if_pos (List.head?_cons), List.tail_cons, ← @List.tail_cons _ (chr '%') f', htail,
      Option.map_map, ← heq]
    congr 1
  | case5 args c f hnul hpercent hnext hscan => cases htext
  | case6 args c f hnul hpercent hnext d f' args' hscan ih =>
    obtain ⟨⟨converted, args''⟩, hconvert, htext⟩ := Option.bind_eq_some_iff.mp htext
    obtain ⟨u, hu, htext⟩ := Option.bind_eq_some_iff.mp htext
    obtain ⟨v, hv, heq⟩ := Option.map_eq_some_iff.mp htext
    rw [complete, if_neg hpercent, if_neg hnext, Bool.and_eq_true, decide_eq_true_iff] at hcomplete
    rw [demands, if_neg hpercent, if_neg hnext] at hcount
    obtain ⟨ks, taken, htaken, hdemands, hconversion, happend⟩ := scanDirective_append g hscan
    obtain ⟨taken', htaken', hagain⟩ := convert_taken hconvert
    rw [hdemands] at hcomplete hcount
    have hall := htaken.trans htaken'
    have hcount' : args''.length = (demands f').length := by
      rw [hall.split, ← hall.kinds] at hcount
      simp only [List.length_append, List.length_map] at hcount
      omega
    have hbody' : 0 ∉ f' := by
      obtain ⟨text, hsplit, -⟩ := directiveDemands_split f
      rw [hdemands] at hsplit
      intro hmem
      exact hbody (List.mem_cons_of_mem _ (hsplit ▸ List.mem_append_right _ hmem))
    have hnext' : ¬(f ++ g).head? = some (chr '%') := by
      cases f with
      | nil => exact absurd rfl hcomplete.1
      | cons c' f => exact hnext
    rw [List.cons_append, formatText_scan hnul hpercent hnext', hall.split, List.append_assoc,
      List.append_assoc, happend (hconversion ▸ hcomplete.1), Option.bind_some]
    dsimp only
    rw [hagain, Option.bind_some]
    dsimp only
    rw [hu, Option.bind_some, ih _ hbody' hcomplete.2 hcount' hv, Option.map_map, ← heq]
    congr 1
    funext w
    exact (List.append_assoc u v w).symm

end Texts

section Calls

variable {m : Memory} {buffer size : ℕ} {f g : List UInt8} {as bs : List Argument}
  {t u : List UInt8}

/-- Bytes over the last of the bytes in front of them. -/
theorem writeBytes_behind (c : UInt8) (hne : u ≠ []) :
    writeBytes (writeBytes m buffer (t ++ [c])) (buffer + t.length) u =
      writeBytes m buffer (t ++ u) := by
  have hpos : 0 < u.length := List.length_pos_iff.mpr hne
  funext x
  unfold writeBytes
  by_cases hfront : buffer + t.length ≤ x
  · have hget : (t ++ u)[x - buffer]? = u[x - (buffer + t.length)]? := by
      rw [List.getElem?_append_right (by omega), Nat.sub_sub]
    rw [if_pos hfront, if_pos (by omega), if_pos (by omega), hget]
    by_cases hin : x - (buffer + t.length) < u.length
    · rw [List.getElem?_eq_getElem hin, Option.getD_some, Option.getD_some]
    · have hend : (t ++ [c])[x - buffer]? = none :=
        List.getElem?_eq_none (by rw [List.length_append, List.length_singleton]; omega)
      rw [List.getElem?_eq_none (by omega), hend, Option.getD_none, Option.getD_none]
  · rw [if_neg hfront]
    by_cases hbuffer : buffer ≤ x
    · rw [if_pos hbuffer, if_pos hbuffer, List.getElem?_append_left (by omega),
        List.getElem?_append_left (by omega)]
    · rw [if_neg hbuffer, if_neg hbuffer]

/-- If a format ends inside no directive and what it prints fits, a second call that goes on where
the first has ended leaves the memory that one call of both formats leaves, and the numbers that the
calls return add up. -/
theorem vsnprintf_in_two_calls (hbody : 0 ∉ f) (hcomplete : complete f)
    (hcount : as.length = (demands f).length) (hf : formatText f as = some t)
    (hg : formatText g bs = some u) (hroom : t.length < size) (hint : (t.length : ℤ) ≤ int32Max)
    (hlength : t.length + u.length + 1 < 2 ^ 64) : ∃ m₁ m₂ k,
      vsnprintf m buffer size f as = some ((t.length : ℤ), m₁) ∧
      vsnprintf m₁ (buffer + t.length) (size - t.length) g bs = some (k, m₂) ∧
      vsnprintf m buffer size (f ++ g) (as ++ bs) = some (min (t.length + k) int32Max, m₂) ∧
      readBytes m₂ buffer (min (t ++ u).length (size - 1) + 1) = (t ++ u).take (size - 1) ++ [0] := by
  have hboth : formatText (f ++ g) (as ++ bs) = some (t ++ u) := by
    rw [formatText_append hbody hcomplete hcount hf, hg, Option.map_some]
  have hall : t.take (size - 1) = t := List.take_of_length_le (by omega)
  have hcut : (t ++ u).take (size - 1) = t ++ u.take (size - t.length - 1) := by
    rw [List.take_append, hall, Nat.sub_right_comm]
  have hbytes : ((t ++ u).take (size - 1) ++ [0]).length = min (t ++ u).length (size - 1) + 1 := by
    rw [List.length_append, List.length_take, List.length_singleton, Nat.min_comm]
  have hmemory : writeBytes (writeBytes m buffer (t ++ [0])) (buffer + t.length)
      (u.take (size - t.length - 1) ++ [0]) =
      writeBytes m buffer ((t ++ u).take (size - 1) ++ [0]) := by
    rw [writeBytes_behind 0 (List.append_ne_nil_of_right_ne_nil _ (List.cons_ne_nil 0 [])), hcut,
      List.append_assoc]
  refine ⟨writeBytes m buffer (t ++ [0]), writeBytes m buffer ((t ++ u).take (size - 1) ++ [0]),
    min (u.length : ℤ) int32Max, ?_, ?_, ?_, ?_⟩
  · rw [vsnprintf_of_text hf (by omega), if_neg (by omega), hall, min_eq_left hint]
  · rw [vsnprintf_of_text hg (by omega), if_neg (by omega), hmemory]
  · rw [vsnprintf_of_text hboth (by rw [List.length_append]; omega), if_neg (by omega),
      List.length_append]
    congr 2
    push_cast
    omega
  · rw [← hbytes]
    exact readBytes_writeBytes

/-- The second call is truncated. -/
theorem vsnprintf_in_two_calls_truncated : ∃ m₁ m₂ k,
    vsnprintf (fun _ => 7) 1000 7 (ascii "%d, ") [.int 41] =
      some (((ascii "41, ").length : ℤ), m₁) ∧
    vsnprintf m₁ (1000 + (ascii "41, ").length) (7 - (ascii "41, ").length) (ascii "%-4x|")
      [.int 171] = some (k, m₂) ∧
    vsnprintf (fun _ => 7) 1000 7 (ascii "%d, " ++ ascii "%-4x|") ([.int 41] ++ [.int 171]) =
      some (min (((ascii "41, ").length : ℤ) + k) int32Max, m₂) ∧
    readBytes m₂ 1000 (min (ascii "41, " ++ ascii "ab  |").length (7 - 1) + 1) =
      (ascii "41, " ++ ascii "ab  |").take (7 - 1) ++ [0] :=
  vsnprintf_in_two_calls (by decide) (by decide +kernel) (by decide +kernel) (by decide +kernel)
    (by decide +kernel) (by decide) (by decide) (by decide)

end Calls

end JsOs.FormatComposition
