import Mathlib

/-!
# JSON

The grammar of JSON texts, as a relation between the characters of a text and the value that it
spells. A string may hold every character from U+0020 on except `"` and `\`, and may escape every
character; escapes that denote no character (one half of a surrogate pair) spell nothing. The
members of an object are kept in the order of the text, with repetitions.

Results:
1. `Chars.eq_of_backslash`: a string spelled without escapes is spelled as it is.
2. `Spells.scan`: control characters stand between tokens only.
-/

namespace P2P333.Lib.Json

/-- A value as a parser returns it. -/
inductive Value where
  | null
  | bool (b : Bool)
  | num (q : ℚ)
  | str (s : List Char)
  | arr (vs : List Value)
  | obj (members : List (List Char × Value))

/-! ## Tokens -/

def isWs (c : Char) : Bool := c = ' ' || c = '\t' || c = '\n' || c = '\r'

def Ws (w : List Char) : Prop := ∀ c ∈ w, isWs c = true

def hexDigit (c : Char) : Option Nat :=
  if '0' ≤ c ∧ c ≤ '9' then some (c.toNat - '0'.toNat)
  else if 'a' ≤ c ∧ c ≤ 'f' then some (c.toNat - 'a'.toNat + 10)
  else if 'A' ≤ c ∧ c ≤ 'F' then some (c.toNat - 'A'.toNat + 10)
  else none

theorem hexDigit_bounds {c : Char} {n : Nat} (h : hexDigit c = some n) :
    n < 16 ∧ 0x30 ≤ c.toNat ∧ c.toNat ≤ 0x66 := by
  have hle : ∀ a b : Char, a ≤ b → a.toNat ≤ b.toNat := fun a b hab =>
    UInt32.le_iff_toNat_le.mp (Char.le_def.mp hab)
  unfold hexDigit at h
  split at h
  · next hc =>
    have := hle _ _ hc.1
    have := hle _ _ hc.2
    simp only [Option.some.injEq, Char.reduceToNat] at *
    omega
  · split at h
    · next hc =>
      have := hle _ _ hc.1
      have := hle _ _ hc.2
      simp only [Option.some.injEq, Char.reduceToNat] at *
      omega
    · split at h
      · next hc =>
        have := hle _ _ hc.1
        have := hle _ _ hc.2
        simp only [Option.some.injEq, Char.reduceToNat] at *
        omega
      · cases h

/-- Four hexadecimal digits and their value. -/
inductive Hex4 : List Char → Nat → Prop
  | mk {a b c d : Char} {w x y z : Nat} (ha : hexDigit a = some w) (hb : hexDigit b = some x)
      (hc : hexDigit c = some y) (hd : hexDigit d = some z) :
      Hex4 [a, b, c, d] (((w * 16 + x) * 16 + y) * 16 + z)

/-- The letter of a short escape and the character that it denotes. -/
def escapes : List (Char × Char) :=
  [('"', '"'), ('\\', '\\'), ('/', '/'), ('b', '\x08'), ('f', '\x0c'), ('n', '\n'), ('r', '\r'),
    ('t', '\t')]

/-- The characters between the quotes of a string, and the string. -/
inductive Chars : List Char → List Char → Prop
  | nil : Chars [] []
  | plain {c : Char} {raw s : List Char} (hcontrol : 0x20 ≤ c.toNat) (hquote : c ≠ '"')
      (hslash : c ≠ '\\') (h : Chars raw s) : Chars (c :: raw) (c :: s)
  | escape {e c : Char} {raw s : List Char} (he : (e, c) ∈ escapes) (h : Chars raw s) :
      Chars ('\\' :: e :: raw) (c :: s)
  | unicode {u raw s : List Char} {n : Nat} (hu : Hex4 u n) (hn : n.isValidChar)
      (h : Chars raw s) : Chars ('\\' :: 'u' :: (u ++ raw)) (Char.ofNat n :: s)
  | surrogates {u v raw s : List Char} {hi lo : Nat} (hu : Hex4 u hi) (hv : Hex4 v lo)
      (hhi : 0xd800 ≤ hi ∧ hi < 0xdc00) (hlo : 0xdc00 ≤ lo ∧ lo < 0xe000) (h : Chars raw s) :
      Chars ('\\' :: 'u' :: (u ++ '\\' :: 'u' :: (v ++ raw)))
        (Char.ofNat (0x10000 + (hi - 0xd800) * 0x400 + (lo - 0xdc00)) :: s)

/-- At least one decimal digit. -/
def Digits (ds : List Char) : Prop := ds ≠ [] ∧ ∀ c ∈ ds, c.isDigit = true

/-- The fraction of a number, and its digits. -/
inductive Frac : List Char → List Char → Prop
  | none : Frac [] []
  | some {ds : List Char} (h : Digits ds) : Frac ('.' :: ds) ds

/-- The exponent of a number, and its value. -/
inductive Exponent : List Char → ℤ → Prop
  | none : Exponent [] 0
  | plain {e : Char} {ds : List Char} (he : e = 'e' ∨ e = 'E') (h : Digits ds) :
      Exponent (e :: ds) (Nat.ofDigitChars 10 ds 0)
  | plus {e : Char} {ds : List Char} (he : e = 'e' ∨ e = 'E') (h : Digits ds) :
      Exponent (e :: '+' :: ds) (Nat.ofDigitChars 10 ds 0)
  | minus {e : Char} {ds : List Char} (he : e = 'e' ∨ e = 'E') (h : Digits ds) :
      Exponent (e :: '-' :: ds) (-Nat.ofDigitChars 10 ds 0)

/-- A number without its sign. A first digit 0 is the only one before the point. -/
inductive Magnitude : List Char → ℚ → Prop
  | mk {int frac ds exp : List Char} {e : ℤ} (hint : Digits int)
      (hzero : int.head? = some '0' → int = ['0']) (hfrac : Frac frac ds) (hexp : Exponent exp e) :
      Magnitude (int ++ frac ++ exp)
        (Nat.ofDigitChars 10 (int ++ ds) 0 * (10 : ℚ) ^ (e - ds.length))

/-- A spelled number and its value. -/
inductive Number : List Char → ℚ → Prop
  | pos {t : List Char} {q : ℚ} (h : Magnitude t q) : Number t q
  | neg {t : List Char} {q : ℚ} (h : Magnitude t q) : Number ('-' :: t) (-q)

/-! ## Values -/

/-- What a part of a text can spell: a value, or what stands between the brackets of one. -/
inductive Phrase where
  | value (v : Value)
  | elements (vs : List Value)
  | members (ms : List (List Char × Value))

/-- What the characters spell. -/
inductive Spells : List Char → Phrase → Prop
  | null : Spells ['n', 'u', 'l', 'l'] (.value .null)
  | true : Spells ['t', 'r', 'u', 'e'] (.value (.bool .true))
  | false : Spells ['f', 'a', 'l', 's', 'e'] (.value (.bool .false))
  | num {t : List Char} {q : ℚ} (h : Number t q) : Spells t (.value (.num q))
  | str {raw s : List Char} (h : Chars raw s) : Spells ('"' :: raw ++ ['"']) (.value (.str s))
  | emptyArr {w : List Char} (hw : Ws w) : Spells ('[' :: w ++ [']']) (.value (.arr []))
  | arr {t : List Char} {vs : List Value} (h : Spells t (.elements vs)) :
      Spells ('[' :: t ++ [']']) (.value (.arr vs))
  | emptyObj {w : List Char} (hw : Ws w) : Spells ('{' :: w ++ ['}']) (.value (.obj []))
  | obj {t : List Char} {ms : List (List Char × Value)} (h : Spells t (.members ms)) :
      Spells ('{' :: t ++ ['}']) (.value (.obj ms))
  | element {w t w' : List Char} {v : Value} (hw : Ws w) (h : Spells t (.value v)) (hw' : Ws w') :
      Spells (w ++ t ++ w') (.elements [v])
  | elements {t rest : List Char} {v : Value} {vs : List Value} (h : Spells t (.elements [v]))
      (hrest : Spells rest (.elements vs)) : Spells (t ++ ',' :: rest) (.elements (v :: vs))
  | member {w raw k w₁ w₂ t w' : List Char} {v : Value} (hw : Ws w) (hk : Chars raw k) (hw₁ : Ws w₁)
      (hw₂ : Ws w₂) (h : Spells t (.value v)) (hw' : Ws w') :
      Spells (w ++ ('"' :: raw ++ ['"']) ++ w₁ ++ ':' :: (w₂ ++ t ++ w')) (.members [(k, v)])
  | members {t rest : List Char} {m : List Char × Value} {ms : List (List Char × Value)}
      (h : Spells t (.members [m])) (hrest : Spells rest (.members ms)) :
      Spells (t ++ ',' :: rest) (.members (m :: ms))

/-- A whole text: a value between whitespace. -/
inductive Text : List Char → Value → Prop
  | mk {w t w' : List Char} {v : Value} (hw : Ws w) (h : Spells t (.value v)) (hw' : Ws w') :
      Text (w ++ t ++ w') v

/-! ## Strings -/

section Strings

variable {raw s t : List Char} {c : Char}

/-- The characters that are no part of an escape, except for the quote, which only stands for
itself. -/
def Mark (c : Char) : Prop := c = '"' ∨ c = ',' ∨ c = ':' ∨ c = '}'

theorem hexDigit_mark (h : Mark c) : hexDigit c = none := by
  rcases h with rfl | rfl | rfl | rfl <;> rfl

theorem Hex4.not_mark {u : List Char} {n : Nat} (h : Hex4 u n) (hc : Mark c) : c ∉ u := by
  have hnone := hexDigit_mark hc
  cases h with
  | mk =>
    simp only [List.mem_cons, List.not_mem_nil, or_false, not_or]
    refine ⟨?_, ?_, ?_, ?_⟩ <;>
    · rintro rfl
      simp_all

/-- A mark between the quotes is a character of the string. -/
theorem Chars.mem_of_mark (h : Chars raw s) (hc : Mark c) (hmem : c ∈ raw) : c ∈ s := by
  have hletter : c ≠ '\\' ∧ c ≠ 'u' := by
    rcases hc with rfl | rfl | rfl | rfl <;> decide
  induction h with
  | nil => cases hmem
  | plain _ _ _ _ ih =>
    rcases List.mem_cons.mp hmem with rfl | hmem
    · exact List.mem_cons_self
    · exact List.mem_cons_of_mem _ (ih hmem)
  | escape he _ ih =>
    rcases List.mem_cons.mp hmem with rfl | hmem
    · exact absurd rfl hletter.1
    · rcases List.mem_cons.mp hmem with rfl | hmem
      · -- of the marks only the quote has a short escape, and that denotes it
        rcases hc with rfl | rfl | rfl | rfl <;> simp_all [escapes]
      · exact List.mem_cons_of_mem _ (ih hmem)
  | unicode hu _ _ ih =>
    simp only [List.mem_cons, List.mem_append, hletter.1, hletter.2, hu.not_mark hc,
      false_or] at hmem
    exact List.mem_cons_of_mem _ (ih hmem)
  | surrogates hu hv _ _ _ ih =>
    simp only [List.mem_cons, List.mem_append, hletter.1, hletter.2, hu.not_mark hc,
      hv.not_mark hc, false_or] at hmem
    exact List.mem_cons_of_mem _ (ih hmem)

/-- A quote between the quotes is escaped. -/
theorem Chars.backslash_of_quote (h : Chars raw s) (hmem : '"' ∈ raw) : '\\' ∈ raw := by
  induction h with
  | nil => cases hmem
  | plain _ hquote _ _ ih =>
    exact List.mem_cons_of_mem _ (ih ((List.mem_cons.mp hmem).resolve_left (Ne.symm hquote)))
  | escape => exact List.mem_cons_self
  | unicode => exact List.mem_cons_self
  | surrogates => exact List.mem_cons_self

/-- The number of characters other than quotes. -/
def width (l : List Char) : Nat := l.countP (· ≠ '"')

@[simp] theorem width_nil : width [] = 0 := rfl

@[simp] theorem width_append (l l' : List Char) : width (l ++ l') = width l + width l' :=
  List.countP_append

@[simp] theorem width_quote (l : List Char) : width ('"' :: l) = width l := rfl

theorem width_cons (h : c ≠ '"') (l : List Char) : width (c :: l) = width l + 1 :=
  List.countP_cons_of_pos (by simpa using h)

theorem width_slash (l : List Char) : width ('\\' :: l) = width l + 1 := width_cons (by decide) l

theorem width_u (l : List Char) : width ('u' :: l) = width l + 1 := width_cons (by decide) l

theorem width_cons_le (c : Char) (l : List Char) : width (c :: l) ≤ width l + 1 := by
  by_cases h : c = '"'
  · rw [h, width_quote]
    exact Nat.le_succ _
  · exact (width_cons h l).le

/-- An escape takes up more room than the character that it denotes, quotes not counted. -/
theorem Chars.width_le (h : Chars raw s) :
    width s ≤ width raw ∧ ('\\' ∈ raw → width s < width raw) := by
  induction h with
  | nil => exact ⟨Nat.le_refl _, fun h => by cases h⟩
  | plain _ hquote hslash _ ih =>
    rw [width_cons hquote, width_cons hquote]
    refine ⟨Nat.succ_le_succ ih.1, fun hmem => Nat.succ_lt_succ (ih.2 ?_)⟩
    exact (List.mem_cons.mp hmem).resolve_left (Ne.symm hslash)
  | @escape e c raw s he _ ih =>
    have hlt : width (c :: s) < width ('\\' :: e :: raw) := by
      rw [width_slash]
      by_cases hquote : e = '"'
      · obtain rfl : c = '"' := by simpa [escapes, hquote] using he
        rw [hquote, width_quote, width_quote]
        omega
      · rw [width_cons hquote]
        have := width_cons_le c s
        omega
    exact ⟨hlt.le, fun _ => hlt⟩
  | @unicode u raw s n _ _ _ ih =>
    have hlt : width (Char.ofNat n :: s) < width ('\\' :: 'u' :: (u ++ raw)) := by
      rw [width_slash, width_u, width_append]
      have := width_cons_le (Char.ofNat n) s
      omega
    exact ⟨hlt.le, fun _ => hlt⟩
  | @surrogates u v raw s hi lo _ _ _ _ _ ih =>
    have hlt : width (Char.ofNat (0x10000 + (hi - 0xd800) * 0x400 + (lo - 0xdc00)) :: s) <
        width ('\\' :: 'u' :: (u ++ '\\' :: 'u' :: (v ++ raw))) := by
      rw [width_slash, width_u, width_append, width_slash, width_u, width_append]
      have := width_cons_le (Char.ofNat (0x10000 + (hi - 0xd800) * 0x400 + (lo - 0xdc00))) s
      omega
    exact ⟨hlt.le, fun _ => hlt⟩

/-- A character that needs no escape. -/
def isPlain (c : Char) : Bool := 0x20 ≤ c.toNat && c ≠ '"' && c ≠ '\\'

theorem Chars.of_plain (h : s.all isPlain = true) : Chars s s := by
  induction s with
  | nil => exact .nil
  | cons c s ih =>
    simp only [List.all_cons, isPlain, Bool.and_eq_true, decide_eq_true_eq] at h
    exact .plain h.1.1.1 h.1.1.2 h.1.2 (ih h.2)

/-- A string spelled without escapes is spelled as it is. -/
theorem Chars.eq_of_backslash (h : Chars raw s) (hraw : '\\' ∉ raw) : raw = s := by
  induction h with
  | nil => rfl
  | plain _ _ _ _ ih => rw [ih (fun hmem => hraw (List.mem_cons_of_mem _ hmem))]
  | escape => exact absurd List.mem_cons_self hraw
  | unicode => exact absurd List.mem_cons_self hraw
  | surrogates => exact absurd List.mem_cons_self hraw

end Strings

/-! ## Control characters -/

/-- Where a scanner of the text stands: between tokens, in a string, or behind a backslash. -/
inductive Mode where
  | outside
  | inside
  | escaped
deriving DecidableEq

/-- The modes along a text; `none` at a control character within a string. -/
def scan : Mode → List Char → Option Mode
  | m, [] => some m
  | .outside, c :: l => scan (if c = '"' then .inside else .outside) l
  | .inside, c :: l =>
    if c.toNat < 0x20 then none
    else scan (if c = '"' then .outside else if c = '\\' then .escaped else .inside) l
  | .escaped, c :: l => if c.toNat < 0x20 then none else scan .inside l

theorem scan_append (m : Mode) (l l' : List Char) :
    scan m (l ++ l') = (scan m l).bind fun m' => scan m' l' := by
  induction l generalizing m with
  | nil => cases m <;> rfl
  | cons c l ih =>
    cases m with
    | outside => exact ih _
    | inside =>
      simp only [List.cons_append, scan]
      split
      · rfl
      · exact ih _
    | escaped =>
      simp only [List.cons_append, scan]
      split
      · rfl
      · exact ih _

/-- Between tokens only a quote changes the mode. -/
theorem scan_outside {l : List Char} (h : '"' ∉ l) : scan .outside l = some .outside := by
  induction l with
  | nil => rfl
  | cons c l ih =>
    rw [List.mem_cons, not_or] at h
    rw [scan, if_neg (Ne.symm h.1)]
    exact ih h.2

theorem Ws.not_quote {w : List Char} (h : Ws w) : '"' ∉ w := fun hmem => by
  simpa [isWs] using h _ hmem

theorem Digits.not_quote {ds : List Char} (h : Digits ds) : '"' ∉ ds := fun hmem => by
  simpa [Char.isDigit] using h.2 _ hmem

theorem Number.not_quote {t : List Char} {q : ℚ} (h : Number t q) : '"' ∉ t := by
  have hmagnitude : ∀ {t : List Char} {q : ℚ}, Magnitude t q → '"' ∉ t := by
    rintro _ _ ⟨hint, -, hfrac, hexp⟩
    have hf : ∀ {t ds}, Frac t ds → '"' ∉ t := by
      rintro _ _ (_ | hds)
      · exact List.not_mem_nil
      · simpa using hds.not_quote
    have he : ∀ {t e}, Exponent t e → '"' ∉ t := by
      rintro _ _ (_ | ⟨rfl | rfl, hds⟩ | ⟨rfl | rfl, hds⟩ | ⟨rfl | rfl, hds⟩)
      · exact List.not_mem_nil
      all_goals simpa using hds.not_quote
    simp [hint.not_quote, hf hfrac, he hexp]
  cases h with
  | pos h => exact hmagnitude h
  | neg h => simpa using hmagnitude h

theorem scan_hexDigit {c : Char} {n : Nat} (h : hexDigit c = some n) (l : List Char) :
    scan .inside (c :: l) = scan .inside l := by
  have hcontrol : ¬ c.toNat < 0x20 := by
    have := (hexDigit_bounds h).2.1
    omega
  rw [scan, if_neg hcontrol, if_neg, if_neg]
  · rintro rfl
    cases h
  · rintro rfl
    cases h

theorem Hex4.scan {u : List Char} {n : Nat} (h : Hex4 u n) (l : List Char) :
    Json.scan .inside (u ++ l) = Json.scan .inside l := by
  cases h with
  | mk ha hb hc hd =>
    simp only [List.cons_append, List.nil_append, scan_hexDigit ha, scan_hexDigit hb,
      scan_hexDigit hc, scan_hexDigit hd]

/-- The characters of a string end where they began. -/
theorem Chars.scan {raw s : List Char} (h : Chars raw s) :
    Json.scan .inside raw = some .inside := by
  induction h with
  | nil => rfl
  | plain hcontrol hquote hslash _ ih =>
    rwa [Json.scan, if_neg (Nat.not_lt.mpr hcontrol), if_neg hquote, if_neg hslash]
  | @escape e c raw s he _ ih =>
    have hcontrol : ∀ x ∈ escapes, ¬ x.1.toNat < 0x20 := by decide
    show Json.scan .escaped (e :: raw) = _
    rwa [Json.scan, if_neg (hcontrol _ he)]
  | @unicode u raw s n hu _ _ ih =>
    show Json.scan .inside (u ++ raw) = _
    rw [hu.scan, ih]
  | @surrogates u v raw s hi lo hu hv _ _ _ ih =>
    show Json.scan .inside (u ++ _) = _
    rw [hu.scan]
    show Json.scan .inside (v ++ raw) = _
    rw [hv.scan, ih]

theorem Chars.scan_quoted {raw s : List Char} (h : Chars raw s) :
    Json.scan .outside ('"' :: raw ++ ['"']) = some .outside := by
  show Json.scan .inside (raw ++ ['"']) = _
  rw [scan_append, h.scan]
  rfl

theorem scan_between {l : List Char} {a b : Char} (ha : a ≠ '"') (hb : b ≠ '"')
    (h : scan .outside l = some .outside) : scan .outside (a :: l ++ [b]) = some .outside := by
  rw [List.cons_append, scan, if_neg ha, scan_append, h, Option.bind_some, scan, if_neg hb, scan]

/-- Control characters stand between tokens only. -/
theorem Spells.scan {t : List Char} {p : Phrase} (h : Spells t p) :
    Json.scan .outside t = some .outside := by
  induction h with
  | null => rfl
  | true => rfl
  | false => rfl
  | num h => exact scan_outside h.not_quote
  | str h => exact h.scan_quoted
  | emptyArr hw | emptyObj hw =>
    exact scan_between (by decide) (by decide) (scan_outside hw.not_quote)
  | arr h ih => exact scan_between (by decide) (by decide) ih
  | obj h ih => exact scan_between (by decide) (by decide) ih
  | element hw h hw' ih =>
    simp only [scan_append, scan_outside hw.not_quote, ih, scan_outside hw'.not_quote,
      Option.bind_some]
  | @elements t rest _ _ _ _ ih ihrest =>
    rw [scan_append, ih]
    exact ihrest
  | @member w raw k w₁ w₂ t w' v hw hk hw₁ hw₂ h hw' ih =>
    rw [scan_append, scan_append, scan_append, scan_outside hw.not_quote, Option.bind_some,
      hk.scan_quoted, Option.bind_some, scan_outside hw₁.not_quote]
    show Json.scan .outside (w₂ ++ t ++ w') = _
    simp only [scan_append, scan_outside hw₂.not_quote, ih, scan_outside hw'.not_quote,
      Option.bind_some]
  | @members t rest _ _ _ _ ih ihrest =>
    rw [scan_append, ih]
    exact ihrest

theorem Text.scan {t : List Char} {v : Value} (h : Text t v) :
    Json.scan .outside t = some .outside := by
  cases h with
  | mk hw h hw' =>
    simp only [scan_append, scan_outside hw.not_quote, h.scan, scan_outside hw'.not_quote,
      Option.bind_some]

/-! ## Natural numbers -/

theorem digits_toDigits (n : Nat) : Digits (Nat.toDigits 10 n) :=
  ⟨Nat.toDigits_ne_nil, fun _ hc => Nat.isDigit_of_mem_toDigits (by decide) (by decide) hc⟩

/-- Only zero starts with a zero. -/
theorem toDigits_of_head {n : Nat} (h : (Nat.toDigits 10 n).head? = some '0') :
    Nat.toDigits 10 n = ['0'] := by
  induction n using Nat.strong_induction_on with
  | _ n ih =>
    by_cases hn : n < 10
    · rw [Nat.toDigits_of_lt_base hn] at h ⊢
      rw [Option.some.inj h]
    · rw [Nat.toDigits_of_base_le (by decide) (Nat.not_lt.mp hn),
        List.head?_append_of_ne_nil _ Nat.toDigits_ne_nil] at h
      -- the leading part would be zero, but it stands for `n / 10`
      have hzero := congrArg (fun ds => Nat.ofDigitChars 10 ds 0) (ih (n / 10) (by omega) h)
      simp only [Nat.ofDigitChars_ten_toDigits] at hzero
      exact absurd hzero (by simp [Nat.ofDigitChars]; omega)

theorem spells_toDigits (n : Nat) : Spells (Nat.toDigits 10 n) (.value (.num n)) := by
  have h := Magnitude.mk (digits_toDigits n) toDigits_of_head .none .none
  simp only [List.append_nil, Nat.ofDigitChars_ten_toDigits, List.length_nil, Nat.cast_zero,
    sub_zero, zpow_zero, mul_one] at h
  exact .num (.pos h)

end P2P333.Lib.Json
