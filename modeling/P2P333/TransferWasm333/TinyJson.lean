import P2P333.Lib.Codec
import P2P333.Lib.SplitOnce

/-!
# Reading the pinned config

`333-transfer-wasm/src/lib.rs`, `Config::parse` and the module `tiny_json`. The reader looks for the
first place in the text where the quoted name of a field stands, goes on behind the next colon, and
takes what follows up to the next quote or the next closing brace. It knows no grammar and no
escapes. Texts are lists of characters.

Results:
1. `getStr_eq_ok`, `getMap_eq_ok`: what a field is read as, in terms of the text.
2. `Config.parse_eq_ok`: the same for the whole config.
-/

namespace P2P333.TransferWasm333

open Lib

abbrev Text := List Char

/-- `char::is_whitespace`. -/
def isWhitespace (c : Char) : Bool :=
  (0x09 ≤ c.toNat && c.toNat ≤ 0x0d) || c.toNat = 0x20 || c.toNat = 0x85 || c.toNat = 0xa0 ||
    c.toNat = 0x1680 || (0x2000 ≤ c.toNat && c.toNat ≤ 0x200a) || c.toNat = 0x2028 ||
    c.toNat = 0x2029 || c.toNat = 0x202f || c.toNat = 0x205f || c.toNat = 0x3000

def trimStart (s : Text) : Text := s.dropWhile isWhitespace

def trim (s : Text) : Text := trimBoth isWhitespace s

def isQuote (c : Char) : Bool := c = '"'

/-- `trim_matches('"')`. -/
def trimQuotes (s : Text) : Text := trimBoth isQuote s

/-- Nothing but whitespace. -/
def Blank (w : Text) : Prop := ∀ c ∈ w, isWhitespace c = true

namespace TinyJson

def parse (s : Text) : Except String Text :=
  if (trimStart s).head? = some '{' then .ok s else .error "config: expected a JSON object"

/-- The needle of a field. -/
def quoted (key : String) : Text := '"' :: key.toList ++ ['"']

/-- What follows the first colon behind the field: the part that `get_str` and `get_map` share. -/
def seek (v : Text) (key : String) : Except String Text :=
  match splitOnce (quoted key) v with
  | none => .error ("config: missing \"" ++ key ++ "\"")
  | some (_, rest) =>
    match splitOnce [':'] rest with
    | none => .error "config: expected ':'"
    | some (_, after) => .ok (trimStart after)

def getStr (v : Text) (key : String) : Except String Text :=
  match seek v key with
  | .error e => .error e
  | .ok ('"' :: body) =>
    match splitOnce ['"'] body with
    | none => .error "config: unterminated string"
    | some (s, _) => .ok s
  | .ok _ => .error ("config: \"" ++ key ++ "\" must be a string")

/-- One part between commas, trimmed and not empty. -/
def entry (key : String) (part : Text) : Except String (Text × Text) :=
  match splitOnce [':'] part with
  | none => .error ("config: bad entry in \"" ++ key ++ "\": " ++ String.ofList part)
  | some (k, v) =>
    if trimQuotes (trim k) = [] then .error ("config: empty key in \"" ++ key ++ "\"")
    else .ok (trimQuotes (trim k), trimQuotes (trim v))

/-- The entries between the braces. Blank parts are skipped. -/
def entries (key : String) (body : Text) : Except String (List (Text × Text)) :=
  (((body.splitOn ',').map trim).filter (· ≠ [])).mapM (entry key)

def getMap (v : Text) (key : String) : Except String (List (Text × Text)) :=
  match seek v key with
  | .error e => .error e
  | .ok ('{' :: rest) =>
    match splitOnce ['}'] rest with
    | none => .error "config: unterminated object"
    | some (body, _) => entries key body
  | .ok _ => .error ("config: \"" ++ key ++ "\" must be an object")

end TinyJson

/-- The roster a verifier checks against. -/
structure Config where
  networkId : Text
  owners : List (Text × Text)
  authorities : List (Text × Text)
deriving DecidableEq

open TinyJson in
def Config.parse (json : Text) : Except String Config := do
  let v ← TinyJson.parse json
  let networkId ← getStr v "network_id"
  let owners ← getMap v "owners"
  let authorities ← getMap v "authorities"
  if owners.isEmpty then .error "config: owners must not be empty"
  else if authorities.isEmpty then .error "config: authorities must not be empty"
  else .ok { networkId, owners, authorities }

/-! ## Readings -/

/-- `rest` is what follows the first colon behind the first place where the quoted field stands. -/
inductive Marked (key : String) : Text → Text → Prop
  | mk {before between rest : Text}
      (hfirst : FirstAt (TinyJson.quoted key)
        (before ++ TinyJson.quoted key ++ (between ++ ':' :: rest)) before.length)
      (hcolon : ':' ∉ between) :
      Marked key (before ++ TinyJson.quoted key ++ (between ++ ':' :: rest)) rest

/-- A string reads as what stands between the next two quotes. -/
inductive ReadsStr : Text → Text → Prop
  | mk {w s after : Text} (hw : Blank w) (hs : '"' ∉ s) :
    ReadsStr (w ++ '"' :: (s ++ '"' :: after)) s

/-- A part between commas reads as its two sides of the first colon, each without the whitespace
and the quotes around it. -/
inductive ReadsEntry : Text → Text × Text → Prop
  | mk {k v : Text} (hk : ':' ∉ k) (hne : trimQuotes (trim k) ≠ []) :
      ReadsEntry (k ++ ':' :: v) (trimQuotes (trim k), trimQuotes (trim v))

/-- The parts between the commas of a text, trimmed, without the blank ones. -/
def parts (body : Text) : List Text := ((body.splitOn ',').map trim).filter (· ≠ [])

/-- A roster reads as the parts up to the next closing brace. -/
inductive ReadsMap : Text → List (Text × Text) → Prop
  | mk {w body after : Text} {es : List (Text × Text)} (hw : Blank w) (hbody : '}' ∉ body)
      (hes : List.Forall₂ ReadsEntry (parts body) es) :
      ReadsMap (w ++ '{' :: (body ++ '}' :: after)) es

/-- The text reads as the config. -/
structure Reads (json : Text) (cfg : Config) : Prop where
  opens : ∃ w rest, Blank w ∧ json = w ++ '{' :: rest
  networkId : ∃ rest, Marked "network_id" json rest ∧ ReadsStr rest cfg.networkId
  owners : ∃ rest, Marked "owners" json rest ∧ ReadsMap rest cfg.owners
  authorities : ∃ rest, Marked "authorities" json rest ∧ ReadsMap rest cfg.authorities
  owners_ne : cfg.owners ≠ []
  authorities_ne : cfg.authorities ≠ []

theorem trimStart_eq_cons {s m : Text} {c : Char} (hc : isWhitespace c = false) :
    trimStart s = c :: m ↔ ∃ w, Blank w ∧ s = w ++ c :: m := by
  constructor
  · intro h
    refine ⟨s.takeWhile isWhitespace, fun d hd => List.mem_takeWhile_imp hd, ?_⟩
    rw [← h, trimStart, List.takeWhile_append_dropWhile]
  · rintro ⟨w, hw, rfl⟩
    rw [trimStart, List.dropWhile_append_of_pos hw, List.dropWhile_cons_of_neg (by simp [hc])]

theorem TinyJson.quoted_ne_nil (key : String) : quoted key ≠ [] := List.cons_ne_nil _ _

theorem Marked.split {v : Text} {key : String} {rest : Text} (h : Marked key v rest) :
    ((splitOnce (TinyJson.quoted key) v).bind fun x => (splitOnce [':'] x.2).map Prod.snd) =
      some rest := by
  cases h with
  | mk hfirst hcolon =>
    rw [(splitOnce_eq_some (TinyJson.quoted_ne_nil key)).mpr ⟨rfl, hfirst⟩, Option.bind_some,
      splitOnce_of_notMem hcolon, Option.map_some]

theorem Marked.unique {v : Text} {key : String} {rest rest' : Text} (h : Marked key v rest)
    (h' : Marked key v rest') : rest = rest' := Option.some.inj (h.split.symm.trans h'.split)

namespace TinyJson

variable {v : Text} {key : String}

theorem seek_eq_ok {r : Text} :
    seek v key = .ok r ↔ ∃ rest, Marked key v rest ∧ trimStart rest = r := by
  constructor
  · intro h
    unfold seek at h
    split at h
    · cases h
    · next before rest hkey =>
      split at h
      · cases h
      · next between after hcolon =>
        cases h
        obtain ⟨rfl, hfirst⟩ := (splitOnce_eq_some (quoted_ne_nil key)).mp hkey
        obtain ⟨rfl, hmem⟩ := splitOnce_singleton.mp hcolon
        exact ⟨after, ⟨hfirst, hmem⟩, rfl⟩
  · rintro ⟨rest, ⟨hfirst, hcolon⟩, rfl⟩
    rw [seek, (splitOnce_eq_some (quoted_ne_nil key)).mpr ⟨rfl, hfirst⟩]
    simp only [splitOnce_of_notMem hcolon]

theorem getStr_eq_ok {s : Text} :
    getStr v key = .ok s ↔ ∃ rest, Marked key v rest ∧ ReadsStr rest s := by
  constructor
  · intro h
    unfold getStr at h
    split at h
    · cases h
    · next body hseek =>
      obtain ⟨rest, hmarked, htrim⟩ := seek_eq_ok.mp hseek
      obtain ⟨w, hw, rfl⟩ := (trimStart_eq_cons rfl).mp htrim
      split at h
      · cases h
      · next s' after hquote =>
        cases h
        obtain ⟨rfl, hmem⟩ := splitOnce_singleton.mp hquote
        exact ⟨_, hmarked, hw, hmem⟩
    · cases h
  · rintro ⟨_, hmarked, hw, hs⟩
    have hseek := seek_eq_ok.mpr ⟨_, hmarked, (trimStart_eq_cons rfl).mpr ⟨_, hw, rfl⟩⟩
    rw [getStr, hseek]
    simp only [splitOnce_of_notMem hs]

variable (key) in
theorem entry_eq_ok {part : Text} {e : Text × Text} :
    entry key part = .ok e ↔ ReadsEntry part e := by
  constructor
  · intro h
    unfold entry at h
    split at h
    · cases h
    · next k w hcolon =>
      obtain ⟨rfl, hmem⟩ := splitOnce_singleton.mp hcolon
      split at h
      · cases h
      · next hne =>
        cases h
        exact ⟨hmem, hne⟩
  · rintro ⟨hk, hne⟩
    rw [entry, splitOnce_of_notMem hk]
    exact if_neg hne

theorem entries_eq_ok {body : Text} {es : List (Text × Text)} :
    entries key body = .ok es ↔ List.Forall₂ ReadsEntry (parts body) es := by
  rw [entries, ← parts]
  induction parts body generalizing es with
  | nil =>
    rw [List.mapM_nil, List.forall₂_nil_left_iff]
    exact ⟨fun h => (Except.ok.inj h).symm, fun h => h ▸ rfl⟩
  | cons part l ih =>
    rw [List.mapM_cons, List.forall₂_cons_left_iff, bind_eq_ok]
    constructor
    · rintro ⟨e, he, h⟩
      obtain ⟨es', hes', h⟩ := bind_eq_ok.mp h
      exact ⟨e, es', (entry_eq_ok key).mp he, ih.mp hes', (Except.ok.inj h).symm⟩
    · rintro ⟨e, es', he, hes', rfl⟩
      exact ⟨e, (entry_eq_ok key).mpr he, bind_eq_ok.mpr ⟨es', ih.mpr hes', rfl⟩⟩

theorem getMap_eq_ok {es : List (Text × Text)} :
    getMap v key = .ok es ↔ ∃ rest, Marked key v rest ∧ ReadsMap rest es := by
  constructor
  · intro h
    unfold getMap at h
    split at h
    · cases h
    · next tail hseek =>
      obtain ⟨rest, hmarked, htrim⟩ := seek_eq_ok.mp hseek
      obtain ⟨w, hw, rfl⟩ := (trimStart_eq_cons rfl).mp htrim
      split at h
      · cases h
      · next body after hbrace =>
        obtain ⟨rfl, hmem⟩ := splitOnce_singleton.mp hbrace
        exact ⟨_, hmarked, hw, hmem, entries_eq_ok.mp h⟩
    · cases h
  · rintro ⟨_, hmarked, hw, hbody, hes⟩
    have hseek := seek_eq_ok.mpr ⟨_, hmarked, (trimStart_eq_cons rfl).mpr ⟨_, hw, rfl⟩⟩
    rw [getMap, hseek]
    simp only [splitOnce_of_notMem hbody]
    exact entries_eq_ok.mpr hes

end TinyJson

theorem TinyJson.parse_eq_ok {s v : Text} :
    TinyJson.parse s = .ok v ↔ v = s ∧ ∃ w rest, Blank w ∧ s = w ++ '{' :: rest := by
  have hbrace : (trimStart s).head? = some '{' ↔ ∃ w rest, Blank w ∧ s = w ++ '{' :: rest := by
    rw [List.head?_eq_some_iff]
    simp only [trimStart_eq_cons (c := '{') rfl]
    exact exists_comm
  rw [TinyJson.parse, ← hbrace]
  split
  · next h => simp [h, eq_comm]
  · next h => simp [h]

theorem Config.parse_eq_ok {json : Text} {cfg : Config} :
    Config.parse json = .ok cfg ↔ Reads json cfg := by
  constructor
  · intro hok
    obtain ⟨v, hparse, h⟩ := bind_eq_ok.mp hok
    obtain ⟨rfl, hopens⟩ := TinyJson.parse_eq_ok.mp hparse
    obtain ⟨networkId, hid, h⟩ := bind_eq_ok.mp h
    obtain ⟨owners, howners, h⟩ := bind_eq_ok.mp h
    obtain ⟨authorities, hauth, h⟩ := bind_eq_ok.mp h
    split at h
    · cases h
    · next hne =>
      split at h
      · cases h
      · next hne' =>
        cases h
        exact ⟨hopens, TinyJson.getStr_eq_ok.mp hid, TinyJson.getMap_eq_ok.mp howners,
          TinyJson.getMap_eq_ok.mp hauth, by simpa using hne, by simpa using hne'⟩
  · intro h
    rw [Config.parse, TinyJson.parse_eq_ok.mpr ⟨rfl, h.opens⟩]
    simp only [bind, Except.bind, TinyJson.getStr_eq_ok.mpr h.networkId,
      TinyJson.getMap_eq_ok.mpr h.owners, TinyJson.getMap_eq_ok.mpr h.authorities]
    rw [if_neg (by simpa using h.owners_ne), if_neg (by simpa using h.authorities_ne)]

/-! ## Where the pieces come from -/

theorem exists_part {l : List Text} {es : List (Text × Text)} {kv : Text × Text}
    (h : List.Forall₂ ReadsEntry l es) (hmem : kv ∈ es) : ∃ part ∈ l, ReadsEntry part kv := by
  induction h with
  | nil => cases hmem
  | @cons part e _ _ hreads _ ih =>
    rcases List.mem_cons.mp hmem with rfl | hmem
    · exact ⟨part, List.mem_cons_self, hreads⟩
    · obtain ⟨part', hpart, hreads'⟩ := ih hmem
      exact ⟨part', List.mem_cons_of_mem part hpart, hreads'⟩

theorem of_mem_parts {body part : Text} (h : part ∈ parts body) :
    ',' ∉ part ∧ part.Sublist body := by
  obtain ⟨piece, hpiece, rfl⟩ := List.mem_map.mp (List.mem_filter.mp h).1
  obtain ⟨hcomma, hsub⟩ := of_mem_splitOn hpiece
  have htrim := (trimBoth_isInfix isWhitespace piece).sublist
  exact ⟨fun hmem => hcomma (htrim.subset hmem), htrim.trans hsub⟩

theorem trims_sublist (l : Text) : (trimQuotes (trim l)).Sublist l :=
  ((trimBoth_isInfix isQuote _).trans (trimBoth_isInfix isWhitespace l)).sublist

/-- The name is cut at the first colon, and both sides come from the part. -/
theorem ReadsEntry.sublist {part : Text} {kv : Text × Text} (h : ReadsEntry part kv) :
    ':' ∉ kv.1 ∧ kv.1.Sublist part ∧ kv.2.Sublist part := by
  cases h with
  | @mk k v hk _ =>
    refine ⟨fun hmem => hk ((trims_sublist k).subset hmem),
      (trims_sublist k).trans (List.sublist_append_left _ _),
      (trims_sublist v).trans ?_⟩
    exact (List.sublist_cons_self ':' v).trans (List.sublist_append_right _ _)

theorem Marked.sublist {key : String} {v rest : Text} (h : Marked key v rest) : rest.Sublist v := by
  cases h with
  | @mk before between _ _ _ =>
    exact (List.sublist_cons_self _ _).trans
      ((List.sublist_append_right between _).trans (List.sublist_append_right _ _))

theorem ReadsStr.sublist {rest s : Text} (h : ReadsStr rest s) : s.Sublist rest := by
  cases h with
  | @mk w _ after _ _ =>
    exact (List.sublist_append_left s _).trans
      ((List.sublist_cons_self _ _).trans (List.sublist_append_right w _))

theorem ReadsMap.sublist {rest : Text} {es : List (Text × Text)} (h : ReadsMap rest es) :
    ∀ kv ∈ es, kv.1.Sublist rest ∧ kv.2.Sublist rest := by
  intro kv hkv
  cases h with
  | @mk w body after _ _ _ hes =>
    obtain ⟨part, hpart, hreads⟩ := exists_part hes hkv
    have hbody : part.Sublist (w ++ '{' :: (body ++ '}' :: after)) :=
      (of_mem_parts hpart).2.trans ((List.sublist_append_left body _).trans
        ((List.sublist_cons_self _ _).trans (List.sublist_append_right w _)))
    exact ⟨hreads.sublist.2.1.trans hbody, hreads.sublist.2.2.trans hbody⟩

/-- Every name of a config is a piece of the text. -/
theorem Reads.sublist {json : Text} {cfg : Config} (h : Reads json cfg) :
    cfg.networkId.Sublist json ∧
    (∀ kv ∈ cfg.owners, kv.1.Sublist json) ∧ ∀ kv ∈ cfg.authorities, kv.1.Sublist json := by
  obtain ⟨_, hid, hreadsId⟩ := h.networkId
  obtain ⟨_, howners, hreadsOwners⟩ := h.owners
  obtain ⟨_, hauth, hreadsAuth⟩ := h.authorities
  exact ⟨hreadsId.sublist.trans hid.sublist,
    fun kv hkv => (hreadsOwners.sublist kv hkv).1.trans howners.sublist,
    fun kv hkv => (hreadsAuth.sublist kv hkv).1.trans hauth.sublist⟩

end P2P333.TransferWasm333
