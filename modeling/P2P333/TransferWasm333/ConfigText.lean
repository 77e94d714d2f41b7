import P2P333.Lib.Json
import P2P333.TransferWasm333.TinyJson

/-!
# Configs as JSON texts

The JSON objects with the members `network_id`, `owners` and `authorities`, in any order, with any
whitespace and any escapes, against what `Config::parse` reads in them.

Results:
1. `isConfig_iff`: a text is such an object exactly when it is the text of some `Doc`.
2. `Doc.reads_iff`: the reader is right about a `Doc` exactly when every member is legible: its name
   is the first quoted one in the text and its strings are clean, or what stands behind an earlier
   place reads the same.
3. `config_exact_iff`: the texts that the reader treats as it should.
-/

namespace P2P333.TransferWasm333

open Lib

/-! ## Objects -/

/-- Whitespace between tokens. -/
abbrev Gap := {w : Text // Json.Ws w}

theorem ws_nil : Json.Ws [] := List.forall_mem_nil _

/-- A string as it is written between its quotes, and as it decodes. -/
structure Tok where
  raw : Text
  decoded : Text
  spelled : Json.Chars raw decoded

def Tok.text (t : Tok) : Text := '"' :: t.raw ++ ['"']

/-- A member of an object. -/
structure Member (β : Type) where
  before : Gap
  name : Tok
  afterName : Gap
  beforeValue : Gap
  value : β
  after : Gap

namespace Member

variable {β γ : Type}

def map (g : β → γ) (m : Member β) : Member γ := { m with value := g m.value }

/-- The member from its name to its value. -/
def core (m : Member Text) : Text :=
  m.name.text ++ m.afterName.1 ++ ':' :: (m.beforeValue.1 ++ m.value)

def text (m : Member Text) : Text := m.before.1 ++ m.core ++ m.after.1

end Member

/-- A roster: names and keys. -/
abbrev Roster := {entries : List (Member Tok) // entries ≠ []}

namespace Roster

def body (r : Roster) : Text := [','].intercalate (r.1.map fun e => (e.map Tok.text).text)

def text (r : Roster) : Text := '{' :: r.body ++ ['}']

def pairs (r : Roster) : List (Text × Text) := r.1.map fun e => (e.name.decoded, e.value.decoded)

end Roster

/-- The fields of a configuration. -/
inductive Field where
  | networkId
  | owners
  | authorities
deriving DecidableEq

def Field.key : Field → String
  | .networkId => "network_id"
  | .owners => "owners"
  | .authorities => "authorities"

/-- A config as a JSON text. -/
structure Doc where
  lead : Gap
  order : List Field
  networkId : Member Tok
  owners : Member Roster
  authorities : Member Roster
  trail : Gap
  perm : order.Perm [.networkId, .owners, .authorities]
  networkId_name : networkId.name.decoded = Field.networkId.key.toList
  owners_name : owners.name.decoded = Field.owners.key.toList
  authorities_name : authorities.name.decoded = Field.authorities.key.toList

namespace Doc

def member (doc : Doc) : Field → Member Text
  | .networkId => doc.networkId.map Tok.text
  | .owners => doc.owners.map Roster.text
  | .authorities => doc.authorities.map Roster.text

def text (doc : Doc) : Text :=
  doc.lead.1 ++ '{' :: ([','].intercalate (doc.order.map fun f => (doc.member f).text) ++
    '}' :: doc.trail.1)

def config (doc : Doc) : Config :=
  ⟨doc.networkId.value.decoded, doc.owners.value.pairs, doc.authorities.value.pairs⟩

theorem mem_order (doc : Doc) (f : Field) : f ∈ doc.order :=
  doc.perm.mem_iff.mpr (by cases f <;> decide)

end Doc

/-! ## Reading a string -/

theorem isWhitespace_of_isWs {c : Char} (h : Json.isWs c = true) : isWhitespace c = true := by
  simp only [Json.isWs, Bool.or_eq_true, decide_eq_true_eq] at h
  rcases h with ((rfl | rfl) | rfl) | rfl <;> rfl

theorem Gap.blank (g : Gap) : Blank g.1 := fun c hc => isWhitespace_of_isWs (g.2 c hc)

theorem Gap.notMem (g : Gap) {c : Char} (hc : isWhitespace c = false) : c ∉ g.1 := fun hmem => by
  rw [g.blank c hmem] at hc
  cases hc

theorem trimStart_gap (g : Gap) {c : Char} (hc : isWhitespace c = false) (m : Text) :
    trimStart (g.1 ++ c :: m) = c :: m :=
  (trimStart_eq_cons hc).mpr ⟨g.1, g.blank, rfl⟩

namespace Tok

variable {t : Tok}

theorem quote_notMem (h : '\\' ∉ t.raw) : '"' ∉ t.raw := fun hmem =>
  h (t.spelled.backslash_of_quote hmem)

theorem decoded_eq (h : '\\' ∉ t.raw) : t.raw = t.decoded := t.spelled.eq_of_backslash h

/-- A string whose characters, quotes apart, are those of its spelling has no escapes. -/
theorem notMem_of_width (h : Json.width t.raw ≤ Json.width t.decoded) : '\\' ∉ t.raw := fun hmem =>
  Nat.not_lt.mpr h (t.spelled.width_le.2 hmem)

/-- The reader gets a string right exactly when the string is written without escapes. -/
theorem readsStr_iff (g : Gap) (after : Text) :
    ReadsStr (g.1 ++ (t.text ++ after)) t.decoded ↔ '\\' ∉ t.raw := by
  have htext : t.text ++ after = '"' :: (t.raw ++ '"' :: after) := by
    simp [Tok.text]
  rw [htext]
  constructor
  · intro h
    generalize heq : g.1 ++ '"' :: (t.raw ++ '"' :: after) = s at h
    cases h with
    | @mk w s after' hw hs =>
      have htrim := congrArg trimStart heq
      rw [trimStart_gap g rfl, (trimStart_eq_cons rfl).mpr ⟨w, hw, rfl⟩, List.cons.injEq] at htrim
      have hraw : '"' ∉ t.raw := fun hmem => hs (t.spelled.mem_of_mark (.inl rfl) hmem)
      have hsplit := splitOnce_of_notMem hraw after
      rw [htrim.2, splitOnce_of_notMem hs, Option.some.injEq, Prod.mk.injEq] at hsplit
      exact notMem_of_width (hsplit.1 ▸ le_rfl)
  · intro h
    rw [← decoded_eq h]
    exact .mk g.blank (quote_notMem h)

end Tok

/-! ## Reading a roster -/

theorem width_trimQuotes (l : Text) : Json.width (trimQuotes l) = Json.width l := by
  have hquotes : ∀ w : Text, (∀ c ∈ w, isQuote c = true) → Json.width w = 0 := fun w hw =>
    List.countP_eq_zero.mpr fun c hc => by simpa [isQuote] using hw c hc
  obtain ⟨w, w', hl, hw, hw'⟩ := exists_trimBoth isQuote l
  conv_rhs => rw [hl]
  rw [Json.width_append, Json.width_append, hquotes w hw, hquotes w' hw', trimQuotes]
  omega

theorem Tok.trimQuotes_text {t : Tok} (h : '"' ∉ t.raw) : trimQuotes t.text = t.raw := by
  have hquote : ∀ c ∈ ['"'], isQuote c = true := by simp [isQuote]
  show trimBoth isQuote (['"'] ++ t.raw ++ ['"']) = t.raw
  rw [trimBoth_append hquote hquote]
  refine trimBoth_of_neg fun c hc => decide_eq_false ?_
  rintro rfl
  exact h hc

theorem Tok.width_text (t : Tok) : Json.width t.text = Json.width t.raw := by
  simp [Tok.text]

namespace Member

variable {e : Member Tok}

/-- A roster entry without escapes and separators in it, under a name that is not empty. -/
structure Clean (e : Member Tok) : Prop where
  name_plain : '\\' ∉ e.name.raw
  key_plain : '\\' ∉ e.value.raw
  name_ne : e.name.raw ≠ []
  name_colon : ':' ∉ e.name.raw
  name_marks : ',' ∉ e.name.raw ∧ '}' ∉ e.name.raw
  key_marks : ',' ∉ e.value.raw ∧ '}' ∉ e.value.raw

def entryCore (e : Member Tok) : Text := (e.map Tok.text).core

theorem entryCore_eq (e : Member Tok) :
    e.entryCore = e.name.text ++ e.afterName.1 ++ ':' :: (e.beforeValue.1 ++ e.value.text) := rfl

/-- An entry begins and ends with a quote. -/
theorem exists_entryCore (e : Member Tok) : ∃ m, e.entryCore = '"' :: m ++ ['"'] :=
  ⟨e.name.raw ++ ['"'] ++ e.afterName.1 ++ ':' :: (e.beforeValue.1 ++ '"' :: e.value.raw), by
    simp [entryCore_eq, Tok.text]⟩

theorem trim_text (e : Member Tok) : trim (e.map Tok.text).text = e.entryCore := by
  obtain ⟨m, hm⟩ := e.exists_entryCore
  show trim (e.before.1 ++ e.entryCore ++ e.after.1) = e.entryCore
  rw [hm, trim, trimBoth_between e.before.blank e.after.blank rfl rfl]

theorem notMem_text {c : Char} (hname : c ∉ e.name.raw) (hkey : c ∉ e.value.raw)
    (hc : c = ',' ∨ c = '}') : c ∉ (e.map Tok.text).text := by
  have hspace : isWhitespace c = false := by
    rcases hc with rfl | rfl <;> rfl
  have hmark : c ≠ '"' ∧ c ≠ ':' := by
    rcases hc with rfl | rfl <;> decide
  show c ∉ e.before.1 ++ e.entryCore ++ e.after.1
  simp [entryCore_eq, Tok.text, hname, hkey, hmark.1, hmark.2, e.before.notMem hspace,
    e.afterName.notMem hspace, e.beforeValue.notMem hspace, e.after.notMem hspace]

/-- The two sides of the colon behind a name without colons. -/
theorem readsEntry_entryCore (hcolon : ':' ∉ e.name.raw) (kv : Text × Text) :
    ReadsEntry e.entryCore kv ↔
      trimQuotes e.name.text ≠ [] ∧ kv = (trimQuotes e.name.text, trimQuotes e.value.text) := by
  have hname : trim (e.name.text ++ e.afterName.1) = e.name.text := by
    have h := trimBoth_between (m := e.name.raw) (List.forall_mem_nil _) e.afterName.blank
      (x := '"') (y := '"') rfl rfl
    exact h
  have hvalue : trim (e.beforeValue.1 ++ e.value.text) = e.value.text := by
    have h := trimBoth_between (m := e.value.raw) e.beforeValue.blank (List.forall_mem_nil _)
      (x := '"') (y := '"') rfl rfl
    rwa [List.append_nil] at h
  have hside : ':' ∉ e.name.text ++ e.afterName.1 := by
    simp [Tok.text, hcolon, e.afterName.notMem (c := ':') rfl]
  constructor
  · intro h
    generalize heq : e.entryCore = part at h
    cases h with
    | @mk k v hk hne =>
      have hsplit := splitOnce_of_notMem hside (e.beforeValue.1 ++ e.value.text)
      rw [← entryCore_eq, heq, splitOnce_of_notMem hk, Option.some.injEq, Prod.mk.injEq] at hsplit
      rw [hsplit.1, hname] at hne ⊢
      rw [hsplit.2, hvalue]
      exact ⟨hne, rfl⟩
  · rintro ⟨hne, rfl⟩
    have hreads := ReadsEntry.mk (v := e.beforeValue.1 ++ e.value.text) hside (by rwa [hname])
    rwa [hname, hvalue, ← entryCore_eq] at hreads

/-- Where the separators are out of the way, the reader gets an entry right exactly when it is
written without escapes and named. -/
theorem readsEntry_iff (hcolon : ':' ∉ e.name.raw) :
    ReadsEntry e.entryCore (e.name.decoded, e.value.decoded) ↔
      '\\' ∉ e.name.raw ∧ '\\' ∉ e.value.raw ∧ e.name.raw ≠ [] := by
  rw [readsEntry_entryCore hcolon, Prod.mk.injEq]
  constructor
  · rintro ⟨hne, hname, hkey⟩
    have hplain : '\\' ∉ e.name.raw := Tok.notMem_of_width (by
      rw [hname, width_trimQuotes, Tok.width_text])
    refine ⟨hplain, Tok.notMem_of_width (by rw [hkey, width_trimQuotes, Tok.width_text]), ?_⟩
    rwa [Tok.trimQuotes_text (Tok.quote_notMem hplain)] at hne
  · rintro ⟨hname, hkey, hne⟩
    rw [Tok.trimQuotes_text (Tok.quote_notMem hname), Tok.trimQuotes_text (Tok.quote_notMem hkey)]
    exact ⟨hne, (Tok.decoded_eq hname).symm, (Tok.decoded_eq hkey).symm⟩

end Member

namespace Roster

variable {r : Roster}

theorem parts_body (h : ∀ e ∈ r.1, ',' ∉ (e.map Tok.text).text) :
    parts r.body = r.1.map Member.entryCore := by
  have hsplit : r.body.splitOn ',' = r.1.map fun e => (e.map Tok.text).text :=
    List.splitOn_intercalate ',' (by simpa using h) (by simpa using r.2)
  rw [parts, hsplit, List.map_map, List.filter_eq_self.mpr]
  · exact List.map_congr_left fun e _ => e.trim_text
  · intro part hpart
    obtain ⟨e, -, rfl⟩ := List.mem_map.mp hpart
    obtain ⟨m, hm⟩ := e.exists_entryCore
    simp [Member.trim_text, hm]

/-- The reader finds the end of a roster in which no brace stands. -/
theorem readsMap_body (g : Gap) (after : Text) (hbody : '}' ∉ r.body) (es : List (Text × Text)) :
    ReadsMap (g.1 ++ (r.text ++ after)) es ↔ List.Forall₂ ReadsEntry (parts r.body) es := by
  have htext : r.text ++ after = '{' :: (r.body ++ '}' :: after) := by
    simp [text]
  rw [htext]
  constructor
  · intro h
    generalize heq : g.1 ++ '{' :: (r.body ++ '}' :: after) = s at h
    cases h with
    | @mk w body after' _ hw hbody' hes =>
      have htrim := congrArg trimStart heq
      rw [trimStart_gap g rfl, (trimStart_eq_cons rfl).mpr ⟨w, hw, rfl⟩, List.cons.injEq] at htrim
      have hsplit := splitOnce_of_notMem hbody after
      rw [htrim.2, splitOnce_of_notMem hbody', Option.some.injEq, Prod.mk.injEq] at hsplit
      rwa [← hsplit.1]
  · exact .mk g.blank hbody

theorem brace_notMem_body (h : ∀ e ∈ r.1, '}' ∉ (e.map Tok.text).text) : '}' ∉ r.body := by
  intro hmem
  rcases mem_intercalate hmem with hcomma | ⟨t, ht, hmem⟩
  · exact absurd hcomma (by decide)
  · obtain ⟨e, he, rfl⟩ := List.mem_map.mp ht
    exact h e he hmem

/-- What is read of a roster tells which separators its entries hold. -/
theorem marks_of_readsMap {rest : Text} (h : ReadsMap rest r.pairs) : ∀ e ∈ r.1,
    ':' ∉ e.name.raw ∧ (',' ∉ e.name.raw ∧ '}' ∉ e.name.raw) ∧
      (',' ∉ e.value.raw ∧ '}' ∉ e.value.raw) := by
  intro e he
  have hmem : (e.name.decoded, e.value.decoded) ∈ r.pairs := List.mem_map.mpr ⟨e, he, rfl⟩
  cases h with
  | mk hw hbody hes =>
    obtain ⟨part, hpart, hreads⟩ := exists_part hes hmem
    obtain ⟨hcolon, hname, hkey⟩ := hreads.sublist
    obtain ⟨hcomma, hsub⟩ := of_mem_parts hpart
    -- what a decoded string does not hold, its spelling does not hold
    have hraw : ∀ (t : Tok) (c : Char), Json.Mark c → c ∉ t.decoded → c ∉ t.raw :=
      fun t c hc hnot hin => hnot (t.spelled.mem_of_mark hc hin)
    have hbrace : '}' ∉ part := fun hmem => hbody (hsub.subset hmem)
    have hmark : Json.Mark ',' ∧ Json.Mark ':' ∧ Json.Mark '}' := by simp [Json.Mark]
    exact ⟨hraw _ _ hmark.2.1 hcolon, ⟨hraw _ _ hmark.1 fun hmem => hcomma (hname.subset hmem),
        hraw _ _ hmark.2.2 fun hmem => hbrace (hname.subset hmem)⟩,
      ⟨hraw _ _ hmark.1 fun hmem => hcomma (hkey.subset hmem),
        hraw _ _ hmark.2.2 fun hmem => hbrace (hkey.subset hmem)⟩⟩

/-- The reader gets a roster right exactly when its entries are clean. -/
theorem readsMap_iff (g : Gap) (after : Text) :
    ReadsMap (g.1 ++ (r.text ++ after)) r.pairs ↔ ∀ e ∈ r.1, e.Clean := by
  constructor
  · intro h
    have hmarks := marks_of_readsMap h
    have hcomma : ∀ e ∈ r.1, ',' ∉ (e.map Tok.text).text := fun e he =>
      Member.notMem_text (hmarks e he).2.1.1 (hmarks e he).2.2.1 (.inl rfl)
    have hbrace : ∀ e ∈ r.1, '}' ∉ (e.map Tok.text).text := fun e he =>
      Member.notMem_text (hmarks e he).2.1.2 (hmarks e he).2.2.2 (.inr rfl)
    rw [readsMap_body g after (brace_notMem_body hbrace), parts_body hcomma, pairs,
      List.forall₂_map_left_iff, List.forall₂_map_right_iff, List.forall₂_same] at h
    intro e he
    obtain ⟨hname, hkey, hne⟩ := (Member.readsEntry_iff (hmarks e he).1).mp (h e he)
    exact ⟨hname, hkey, hne, (hmarks e he).1, (hmarks e he).2.1, (hmarks e he).2.2⟩
  · intro h
    have hcomma : ∀ e ∈ r.1, ',' ∉ (e.map Tok.text).text := fun e he =>
      Member.notMem_text (h e he).name_marks.1 (h e he).key_marks.1 (.inl rfl)
    have hbrace : ∀ e ∈ r.1, '}' ∉ (e.map Tok.text).text := fun e he =>
      Member.notMem_text (h e he).name_marks.2 (h e he).key_marks.2 (.inr rfl)
    rw [readsMap_body g after (brace_notMem_body hbrace), parts_body hcomma, pairs,
      List.forall₂_map_left_iff, List.forall₂_map_right_iff, List.forall₂_same]
    intro e he
    have hc := h e he
    exact (Member.readsEntry_iff hc.name_colon).mpr ⟨hc.name_plain, hc.key_plain, hc.name_ne⟩

end Roster

/-! ## Reading a config -/

namespace Doc

variable {doc : Doc} {f : Field}

/-- The text up to the name of a member. -/
def front (doc : Doc) (f : Field) : Text :=
  doc.lead.1 ++ '{' :: ((doc.order.takeWhile (· ≠ f)).flatMap fun g =>
    (doc.member g).text ++ [',']) ++ (doc.member f).before.1

/-- The name of the member is not escaped, and stands before every other place where the text holds
it in quotes. -/
structure First (doc : Doc) (f : Field) : Prop where
  raw : (doc.member f).name.raw = f.key.toList
  first : FirstAt (TinyJson.quoted f.key) doc.text (doc.front f).length

/-- The strings of the member are written so that the reader gets them right. -/
def Clean (doc : Doc) : Field → Prop
  | .networkId => '\\' ∉ doc.networkId.value.raw
  | .owners => ∀ e ∈ doc.owners.value.1, e.Clean
  | .authorities => ∀ e ∈ doc.authorities.value.1, e.Clean

/-- The text reads as the value of the member. -/
def ReadsField (doc : Doc) : Field → Text → Prop
  | .networkId, rest => ReadsStr rest doc.config.networkId
  | .owners, rest => ReadsMap rest doc.config.owners
  | .authorities, rest => ReadsMap rest doc.config.authorities

/-- The member is found and clean, or what is found in its place happens to read the same. -/
def Legible (doc : Doc) (f : Field) : Prop :=
  doc.First f ∧ doc.Clean f ∨
    ¬ doc.First f ∧ ∃ rest, Marked f.key doc.text rest ∧ doc.ReadsField f rest

theorem intercalate_of_mem (t : Field → Text) {l : List Field} (h : f ∈ l) :
    ∃ back, [','].intercalate (l.map t) =
      ((l.takeWhile (· ≠ f)).flatMap fun g => t g ++ [',']) ++ (t f ++ back) := by
  induction l with
  | nil => cases h
  | cons g l ih =>
    by_cases hg : g = f
    · subst hg
      rw [List.takeWhile_cons_of_neg (by simp)]
      cases l with
      | nil => exact ⟨[], by simp⟩
      | cons g' l => exact ⟨',' :: [','].intercalate ((g' :: l).map t), by simp⟩
    · obtain ⟨back, hback⟩ := ih ((List.mem_cons.mp h).resolve_left (Ne.symm hg))
      cases l with
      | nil => exact absurd ((List.mem_cons.mp h).resolve_left (Ne.symm hg)) List.not_mem_nil
      | cons g' l =>
        refine ⟨back, ?_⟩
        rw [List.takeWhile_cons_of_pos (by simpa using hg), List.map_cons, List.map_cons,
          List.intercalate_cons_cons, ← List.map_cons, hback]
        simp

theorem text_eq (doc : Doc) (f : Field) : ∃ back, doc.text =
    doc.front f ++ (doc.member f).name.text ++ ((doc.member f).afterName.1 ++
      ':' :: ((doc.member f).beforeValue.1 ++ ((doc.member f).value ++ back))) := by
  obtain ⟨back, hback⟩ := intercalate_of_mem (fun g => (doc.member g).text) (doc.mem_order f)
  refine ⟨(doc.member f).after.1 ++ back ++ '}' :: doc.trail.1, ?_⟩
  rw [text, hback]
  simp [front, Member.text, Member.core]

/-- What is found behind a name that stands first. -/
theorem marked_of_first (h : doc.First f) : ∃ back,
    Marked f.key doc.text ((doc.member f).beforeValue.1 ++ ((doc.member f).value ++ back)) := by
  obtain ⟨back, hback⟩ := doc.text_eq f
  have hname : (doc.member f).name.text = TinyJson.quoted f.key := by
    rw [Tok.text, h.raw, TinyJson.quoted]
  have hfirst := h.first
  rw [hname] at hback
  rw [hback] at hfirst ⊢
  exact ⟨back, hfirst, (doc.member f).afterName.notMem rfl⟩

theorem readsField_iff (doc : Doc) (f : Field) (back : Text) :
    doc.ReadsField f ((doc.member f).beforeValue.1 ++ ((doc.member f).value ++ back)) ↔
      doc.Clean f := by
  cases f with
  | networkId => exact doc.networkId.value.readsStr_iff _ back
  | owners => exact doc.owners.value.readsMap_iff _ back
  | authorities => exact doc.authorities.value.readsMap_iff _ back

theorem legible_iff (doc : Doc) (f : Field) :
    (∃ rest, Marked f.key doc.text rest ∧ doc.ReadsField f rest) ↔ doc.Legible f := by
  by_cases hf : doc.First f
  · obtain ⟨back, hmarked⟩ := marked_of_first hf
    rw [Legible, or_iff_left (fun h => h.1 hf), ← doc.readsField_iff f back]
    constructor
    · rintro ⟨rest, hrest, hreads⟩
      exact ⟨hf, hmarked.unique hrest ▸ hreads⟩
    · rintro ⟨-, hreads⟩
      exact ⟨_, hmarked, hreads⟩
  · rw [Legible, or_iff_right (fun h => hf h.1)]
    exact ⟨fun h => ⟨hf, h⟩, fun h => h.2⟩

theorem pairs_ne_nil (r : Roster) : r.pairs ≠ [] := fun h => r.2 (List.map_eq_nil_iff.mp h)

/-- The reader is right about a config exactly when every member of it is legible. -/
theorem reads_iff (doc : Doc) : Reads doc.text doc.config ↔ ∀ f, doc.Legible f := by
  constructor
  · intro h f
    rw [← legible_iff]
    cases f with
    | networkId => exact h.networkId
    | owners => exact h.owners
    | authorities => exact h.authorities
  · intro h
    exact
      { opens := ⟨doc.lead.1, _, doc.lead.blank, rfl⟩
        networkId := (doc.legible_iff .networkId).mpr (h .networkId)
        owners := (doc.legible_iff .owners).mpr (h .owners)
        authorities := (doc.legible_iff .authorities).mpr (h .authorities)
        owners_ne := pairs_ne_nil _
        authorities_ne := pairs_ne_nil _ }

end Doc

/-! ## Config texts -/

def rosterValue (es : List (Text × Text)) : Json.Value := .obj (es.map fun e => (e.1, .str e.2))

/-- The text is a JSON object with exactly the three members, in any order. -/
def IsConfig (json : Text) (cfg : Config) : Prop :=
  cfg.owners ≠ [] ∧ cfg.authorities ≠ [] ∧ ∃ ms, Json.Text json (.obj ms) ∧
    ms.Perm [("network_id".toList, .str cfg.networkId), ("owners".toList, rosterValue cfg.owners),
      ("authorities".toList, rosterValue cfg.authorities)]

/-- A config text is read as what it says, and every other text is refused. -/
structure Exact (json : Text) : Prop where
  reads : ∀ cfg, IsConfig json cfg → Config.parse json = .ok cfg
  refuses : (∀ cfg, ¬ IsConfig json cfg) → ∃ e, Config.parse json = .error e

/-- A value with a text that spells it. -/
abbrev Spelled := {x : Text × Json.Value // Json.Spells x.1 (.value x.2)}

def Tok.toSpelled (t : Tok) : Spelled := ⟨(t.text, .str t.decoded), .str t.spelled⟩

/-- What a member says. -/
def Member.meaning (m : Member Spelled) : Text × Json.Value := (m.name.decoded, m.value.1.2)

def Member.spelling (m : Member Spelled) : Text := (m.map (·.1.1)).text

theorem spells_members {l : List (Member Spelled)} (h : l ≠ []) :
    Json.Spells ([','].intercalate (l.map Member.spelling)) (.members (l.map Member.meaning)) := by
  have hone : ∀ m : Member Spelled, Json.Spells m.spelling (.members [m.meaning]) := by
    intro m
    have hspells := Json.Spells.member m.before.2 m.name.spelled m.afterName.2 m.beforeValue.2
      m.value.2 m.after.2
    have htext : m.spelling = m.before.1 ++ ('"' :: m.name.raw ++ ['"']) ++ m.afterName.1 ++
        ':' :: (m.beforeValue.1 ++ m.value.1.1 ++ m.after.1) := by
      simp [Member.spelling, Member.text, Member.core, Member.map, Tok.text]
    rwa [htext]
  induction l with
  | nil => exact absurd rfl h
  | cons m l ih =>
    cases l with
    | nil => simpa using hone m
    | cons m' l =>
      have hspells := Json.Spells.members (hone m) (ih (List.cons_ne_nil m' l))
      simpa using hspells

theorem exists_members {t : Text} {ms : List (Text × Json.Value)}
    (h : Json.Spells t (.members ms)) : ∃ l : List (Member Spelled), l ≠ [] ∧
      t = [','].intercalate (l.map Member.spelling) ∧ ms = l.map Member.meaning := by
  generalize hp : Json.Phrase.members ms = p at h
  induction h generalizing ms with
  | @member w raw k w₁ w₂ t w' v hw hk hw₁ hw₂ h hw' =>
    cases hp
    refine ⟨[⟨⟨w, hw⟩, ⟨raw, k, hk⟩, ⟨w₁, hw₁⟩, ⟨w₂, hw₂⟩, ⟨(t, v), h⟩, ⟨w', hw'⟩⟩],
      List.cons_ne_nil _ _, ?_, rfl⟩
    simp [Member.spelling, Member.text, Member.core, Member.map, Tok.text]
  | @members t rest m ms h hrest ih ihrest =>
    cases hp
    obtain ⟨l, -, rfl, hone⟩ := ih rfl
    obtain ⟨l', hne, rfl, rfl⟩ := ihrest rfl
    obtain ⟨m', rfl⟩ := List.length_eq_one_iff.mp (by simpa using (congrArg List.length hone).symm)
    obtain rfl : m = m'.meaning := by simpa using hone
    refine ⟨m' :: l', List.cons_ne_nil _ _, ?_, rfl⟩
    obtain ⟨x, l'', rfl⟩ := List.exists_cons_of_ne_nil hne
    simp
  | _ => cases hp

theorem exists_tok {x : Spelled} {s : Text} (h : x.1.2 = .str s) :
    ∃ t : Tok, t.text = x.1.1 ∧ t.decoded = s := by
  obtain ⟨⟨t, v⟩, hspells⟩ := x
  obtain rfl : v = .str s := h
  cases hspells with
  | @str raw _ hchars => exact ⟨⟨raw, s, hchars⟩, rfl, rfl⟩

theorem exists_entries {l : List (Member Spelled)} {es : List (Text × Text)}
    (h : es.map (fun e => (e.1, Json.Value.str e.2)) = l.map Member.meaning) :
    ∃ l' : List (Member Tok), l'.map (fun e => (e.map Tok.text).text) = l.map Member.spelling ∧
      l'.map (fun e => (e.name.decoded, e.value.decoded)) = es := by
  induction l generalizing es with
  | nil => exact ⟨[], rfl, by simpa using h.symm⟩
  | cons m l ih =>
    cases es with
    | nil => cases h
    | cons e es =>
      rw [List.map_cons, List.map_cons, List.cons.injEq] at h
      obtain ⟨l', htext, rfl⟩ := ih h.2
      obtain ⟨hname, hvalue⟩ := Prod.mk.inj h.1
      obtain ⟨t, ht, hdecoded⟩ := exists_tok (x := m.value) hvalue.symm
      refine ⟨{ m with value := t } :: l', ?_, ?_⟩
      · rw [List.map_cons, List.map_cons, htext]
        simp [Member.spelling, Member.map, ht]
      · rw [List.map_cons, hdecoded, ← hname]

theorem Roster.spells (r : Roster) : Json.Spells r.text (.value (rosterValue r.pairs)) := by
  have hne : r.1.map (Member.map Tok.toSpelled) ≠ [] := by simpa using r.2
  have h := Json.Spells.obj (spells_members hne)
  rw [List.map_map, List.map_map] at h
  simpa [text, body, pairs, rosterValue, Member.spelling, Member.meaning, Member.map, Tok.toSpelled,
    Function.comp_def] using h

theorem exists_roster {x : Spelled} {es : List (Text × Text)} (hes : es ≠ [])
    (h : x.1.2 = rosterValue es) : ∃ r : Roster, r.text = x.1.1 ∧ r.pairs = es := by
  obtain ⟨⟨t, v⟩, hspells⟩ := x
  obtain rfl : v = rosterValue es := h
  generalize hv : rosterValue es = v at hspells
  cases hspells with
  | emptyObj =>
    have hnil : es = [] := by simpa [rosterValue] using hv
    exact absurd hnil hes
  | obj h =>
    obtain ⟨l, hne, rfl, rfl⟩ := exists_members h
    obtain ⟨l', htext, hpairs⟩ := exists_entries (Json.Value.obj.inj hv)
    have hne' : l' ≠ [] := by
      rintro rfl
      exact hes hpairs.symm
    refine ⟨⟨l', hne'⟩, ?_, hpairs⟩
    rw [Roster.text, Roster.body, htext]
    rfl
  | _ => cases hv

namespace Doc

def toSpelled (doc : Doc) : Field → Member Spelled
  | .networkId => doc.networkId.map Tok.toSpelled
  | .owners => doc.owners.map fun r => ⟨(r.text, rosterValue r.pairs), r.spells⟩
  | .authorities => doc.authorities.map fun r => ⟨(r.text, rosterValue r.pairs), r.spells⟩

theorem spelling_toSpelled (doc : Doc) (f : Field) :
    (doc.toSpelled f).spelling = (doc.member f).text := by
  cases f <;> rfl

theorem isConfig (doc : Doc) : IsConfig doc.text doc.config := by
  refine ⟨pairs_ne_nil _, pairs_ne_nil _, doc.order.map fun f => (doc.toSpelled f).meaning, ?_, ?_⟩
  · have hne : doc.order.map doc.toSpelled ≠ [] := by
      have hmem := doc.mem_order .owners
      intro hnil
      rw [List.map_eq_nil_iff.mp hnil] at hmem
      cases hmem
    have h := Json.Text.mk doc.lead.2 (.obj (spells_members hne)) doc.trail.2
    simpa [text, Function.comp_def, spelling_toSpelled] using h
  · have h := doc.perm.map fun f => (doc.toSpelled f).meaning
    simpa [toSpelled, Member.meaning, Member.map, Tok.toSpelled, config, doc.networkId_name,
      doc.owners_name, doc.authorities_name, Field.key] using h

end Doc

/-- A list whose image is a permutation of three things. -/
theorem perm_map {α β : Type} {g : α → β} {l : List α} {m : List β} (h : m.Perm (l.map g)) :
    ∃ l' : List α, m = l'.map g ∧ l'.Perm l := by
  have hcomp := congrFun (congrFun (List.eq_map_comp_perm g) m) l
  exact hcomp.mpr h

theorem isConfig_iff {json : Text} {cfg : Config} :
    IsConfig json cfg ↔ ∃ doc : Doc, doc.text = json ∧ doc.config = cfg := by
  constructor
  · rintro ⟨howners, hauthorities, ms, ⟨hw, hspells, hw'⟩, hperm⟩
    generalize hv : Json.Value.obj ms = v at hspells
    cases hspells with
    | emptyObj =>
      cases hv
      cases hperm.length_eq
    | obj h =>
      cases hv
      obtain ⟨l, hne, rfl, rfl⟩ := exists_members h
      obtain ⟨l', hl', hperm'⟩ := perm_map hperm.symm
      obtain ⟨ma, l₁, rfl, ha, h₁⟩ := List.map_eq_cons_iff.mp hl'.symm
      obtain ⟨mb, l₂, rfl, hb, h₂⟩ := List.map_eq_cons_iff.mp h₁
      obtain ⟨mc, l₃, rfl, hc, h₃⟩ := List.map_eq_cons_iff.mp h₂
      obtain rfl : l₃ = [] := List.map_eq_nil_iff.mp h₃
      obtain ⟨ta, hta, hta'⟩ := exists_tok (congrArg Prod.snd ha)
      obtain ⟨rb, hrb, hrb'⟩ := exists_roster howners (congrArg Prod.snd hb)
      obtain ⟨rc, hrc, hrc'⟩ := exists_roster hauthorities (congrArg Prod.snd hc)
      -- The object has the three fields once each, in some order.
      let members : Field → Member Spelled
        | .networkId => ma
        | .owners => mb
        | .authorities => mc
      have hfields : l.Perm ([Field.networkId, .owners, .authorities].map members) := hperm'.symm
      obtain ⟨order, rfl, horder⟩ := perm_map hfields
      let doc : Doc :=
        { lead := ⟨_, hw⟩
          order
          networkId := { ma with value := ta }
          owners := { mb with value := rb }
          authorities := { mc with value := rc }
          trail := ⟨_, hw'⟩
          perm := horder
          networkId_name := congrArg Prod.fst ha
          owners_name := congrArg Prod.fst hb
          authorities_name := congrArg Prod.fst hc }
      have hmember : ∀ f, (doc.member f).text = (members f).spelling := by
        intro f
        cases f with
        | networkId => simp [doc, Doc.member, members, Member.map, Member.spelling, hta]
        | owners => simp [doc, Doc.member, members, Member.map, Member.spelling, hrb]
        | authorities => simp [doc, Doc.member, members, Member.map, Member.spelling, hrc]
      refine ⟨doc, ?_, ?_⟩
      · rw [Doc.text, List.map_congr_left fun f _ => hmember f]
        simp [doc, Function.comp_def]
      · show Config.mk ta.decoded rb.pairs rc.pairs = cfg
        rw [hta', hrb', hrc']
    | _ => cases hv
  · rintro ⟨doc, rfl, rfl⟩
    exact doc.isConfig

/-- The reader is exact about a text if and only if every way to see it as a config is legible, and
it does not read as a config without being one. -/
theorem config_exact_iff (json : Text) : Exact json ↔
    (∀ doc : Doc, doc.text = json → ∀ f, doc.Legible f) ∧
    ((∀ doc : Doc, doc.text ≠ json) → ∀ cfg, ¬ Reads json cfg) := by
  have hnot : (∀ cfg, ¬ IsConfig json cfg) ↔ ∀ doc : Doc, doc.text ≠ json := by
    simp only [isConfig_iff, not_exists, not_and]
    exact ⟨fun h doc hdoc => h _ doc hdoc rfl, fun h cfg doc hdoc => absurd hdoc (h doc)⟩
  have herror : (∃ e, Config.parse json = .error e) ↔ ∀ cfg, ¬ Reads json cfg := by
    simp only [← Config.parse_eq_ok]
    cases Config.parse json with
    | error e => exact iff_of_true ⟨e, rfl⟩ fun cfg h => by cases h
    | ok cfg => exact iff_of_false (fun ⟨e, h⟩ => by cases h) fun h => h cfg rfl
  constructor
  · intro h
    refine ⟨fun doc hdoc => ?_, fun hdoc => herror.mp (h.refuses (hnot.mpr hdoc))⟩
    rw [← doc.reads_iff, hdoc, ← Config.parse_eq_ok]
    exact h.reads _ (isConfig_iff.mpr ⟨doc, hdoc, rfl⟩)
  · rintro ⟨hlegible, hrefuses⟩
    refine ⟨fun cfg hcfg => ?_, fun h => herror.mpr (hrefuses (hnot.mp h))⟩
    obtain ⟨doc, hdoc, rfl⟩ := isConfig_iff.mp hcfg
    rw [Config.parse_eq_ok, ← hdoc, doc.reads_iff]
    exact hlegible doc hdoc

namespace Demo

def gap : Gap := ⟨[], ws_nil⟩

/-- A string written without escapes. -/
def tok (s : String) (h : s.toList.all Json.isPlain = true) : Tok :=
  ⟨s.toList, s.toList, .of_plain h⟩

def member {β : Type} (name : Tok) (value : β) : Member β := ⟨gap, name, gap, gap, value, gap⟩

def roster (name key : Tok) : Roster := ⟨[member name key], List.cons_ne_nil _ _⟩

/-- An owner with a comma in its name. -/
def commaDoc : Doc where
  lead := gap
  order := [.networkId, .owners, .authorities]
  networkId := member (tok "network_id" (by decide)) (tok "net" (by decide))
  owners := member (tok "owners" (by decide))
    (roster (tok "smith, j" (by decide)) (tok "00" (by decide)))
  authorities := member (tok "authorities" (by decide))
    (roster (tok "a0" (by decide)) (tok "11" (by decide)))
  trail := gap
  perm := .refl _
  networkId_name := rfl
  owners_name := rfl
  authorities_name := rfl

theorem comma_refused : ∃ json, ¬ Exact json := by
  refine ⟨commaDoc.text, fun h => ?_⟩
  have hparse : Config.parse commaDoc.text = .error "config: bad entry in \"owners\": \"smith" := by
    decide +kernel
  have hreads := h.reads _ commaDoc.isConfig
  rw [hparse] at hreads
  cases hreads

end Demo

end P2P333.TransferWasm333
