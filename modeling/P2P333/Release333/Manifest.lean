import P2P333.Consensus333.Basic
import P2P333.Lib.Slides
import P2P333.Lib.SortBy
import P2P333.Lib.Text

/-!
# Release manifests

`333-release/src/lib.rs`: what a signer of releases signs, and the check of a manifest. Ed25519 is a
parameter.

The bytes are the id, a zero, the version and the time, the parent if there is one, a zero, the
artifacts sorted by name, a zero, and the signer. An artifact is its name, a zero, its cid and its
size. Ids and names may hold zeros, and nothing says whether there is a parent.

Results:
1. `eq_or_confusable`: which releases have the same bytes.
2. `bytes_eq_of_perm_iff`: in which orders the artifacts may be listed.
3. `manifest_pinned_iff`: when every manifest that is accepted is what was signed.
-/

namespace P2P333.Release333

open Lib Consensus333

abbrev Cid := List.Vector UInt8 32

structure Version where
  major : UInt32
  minor : UInt32
  patch : UInt32
deriving DecidableEq

/-- Why a manifest is not appended. -/
inductive ReleaseError where
  | semverRegression (child parent : Version)
  | badSignature
  | unknownSigner (signer : NodeId)
  | duplicateRelease (releaseId : String)
  | unknownParent (parentId : String)
deriving DecidableEq

structure Artifact where
  name : String
  cid : Cid
  sizeBytes : UInt64
deriving DecidableEq

/-- What is signed. -/
structure Release where
  releaseId : String
  version : Version
  createdAtUnix : UInt64
  parentReleaseId : Option String
  artifacts : List Artifact
  signer : NodeId
deriving DecidableEq

structure ReleaseManifest extends Release where
  signature : Signature
deriving DecidableEq

def Version.bytes (v : Version) : Bytes :=
  beBytes 4 v.major.toNat ++ beBytes 4 v.minor.toNat ++ beBytes 4 v.patch.toNat

def Artifact.bytes (a : Artifact) : Bytes :=
  utf8 a.name ++ [0] ++ a.cid.toList ++ beBytes 8 a.sizeBytes.toNat

def canonicalBytes (releaseId : String) (version : Version) (createdAtUnix : UInt64)
    (parent : Option String) (artifacts : List Artifact) (signer : NodeId) : Bytes :=
  utf8 releaseId ++ [0] ++ version.bytes ++ beBytes 8 createdAtUnix.toNat ++
    parent.elim [] utf8 ++ [0] ++ (sortBy Artifact.name artifacts).flatMap Artifact.bytes ++ [0] ++
    signer.toList

def Release.bytes (r : Release) : Bytes :=
  canonicalBytes r.releaseId r.version r.createdAtUnix r.parentReleaseId r.artifacts r.signer

section Signer

variable [Ed25519]

/-- The key of the verifier itself plays no part. -/
def verifyManifest (m : ReleaseManifest) : Except ReleaseError Unit :=
  if Ed25519.verify m.signer m.bytes m.signature then .ok () else .error .badSignature

theorem verifyManifest_eq_ok {m : ReleaseManifest} :
    verifyManifest m = .ok () ↔ Ed25519.verify m.signer m.bytes m.signature = true := by
  unfold verifyManifest
  split_ifs with h <;> simp [h]

end Signer

/-! ## Releases with the same bytes -/

theorem selfDelimiting_version : SelfDelimiting Version.bytes := by
  rintro ⟨major, minor, patch⟩ ⟨major', minor', patch'⟩ x y h
  simp only [Version.bytes, List.append_assoc] at h
  obtain ⟨hmajor, h⟩ := beBytes_u32_inj h
  obtain ⟨hminor, h⟩ := beBytes_u32_inj h
  obtain ⟨hpatch, h⟩ := beBytes_u32_inj h
  rw [hmajor, hminor, hpatch]
  exact ⟨rfl, h⟩

/-- What follows the name of an artifact. -/
def Artifact.tail (a : Artifact) : Bytes := 0 :: (a.cid.toList ++ beBytes 8 a.sizeBytes.toNat)

theorem Artifact.bytes_eq (a : Artifact) : a.bytes = utf8 a.name ++ a.tail := by
  simp only [bytes, tail, List.append_assoc, List.cons_append, List.nil_append]

theorem Artifact.tail_inj {a a' : Artifact} {x y : Bytes} (hname : utf8 a.name = utf8 a'.name)
    (h : a.tail ++ x = a'.tail ++ y) : a = a' ∧ x = y := by
  obtain ⟨name, cid, sizeBytes⟩ := a
  obtain ⟨name', cid', sizeBytes'⟩ := a'
  simp only [tail, List.cons_append, List.append_assoc, List.cons.injEq, true_and] at h
  obtain ⟨hcid, h⟩ := selfDelimiting_vector 32 _ _ _ _ h
  obtain ⟨hsize, h⟩ := beBytes_u64_inj h
  have hname : name = name' := utf8_injective hname
  rw [hname, hcid, hsize]
  exact ⟨rfl, h⟩

theorem Artifact.length_bytes (a : Artifact) : 41 ≤ a.bytes.length := by
  simp [bytes]

abbrev listing (l : List Artifact) : Bytes := l.flatMap Artifact.bytes

/-- Two listings part where the name of an artifact slides. -/
inductive Relisted (l : List Artifact) (t : Bytes) (l' : List Artifact) (t' : Bytes) : Prop
  | slides (same : List Artifact) {a a' : Artifact} {rest rest' : List Artifact}
      (left : l = same ++ a :: rest) (right : l' = same ++ a' :: rest')
      (slides : Slides (utf8 a.name) a.tail (listing rest ++ t)
        (utf8 a'.name) a'.tail (listing rest' ++ t'))

variable {l l' : List Artifact} {t t' : Bytes}

theorem Relisted.append_eq (h : Relisted l t l' t') : listing l ++ t = listing l' ++ t' := by
  obtain ⟨same, rfl, rfl, hslides⟩ := h
  have heq := hslides.append_eq
  simp only [listing, List.flatMap_append, List.flatMap_cons, List.append_assoc, Artifact.bytes_eq,
    heq]

theorem Relisted.cons (a : Artifact) (h : Relisted l t l' t') :
    Relisted (a :: l) t (a :: l') t' := by
  obtain ⟨same, rfl, rfl, hslides⟩ := h
  exact ⟨a :: same, rfl, rfl, hslides⟩

theorem Relisted.names_ne (h : Relisted l t l' t') :
    l.map Artifact.name ≠ l'.map Artifact.name := by
  obtain ⟨same, rfl, rfl, hslides⟩ := h
  intro hnames
  simp only [List.map_append, List.map_cons, List.append_cancel_left_eq, List.cons.injEq] at hnames
  exact hslides.ne (List.cons_ne_nil _ _) (congrArg utf8 hnames.1)

/-- Listings with tails of one length end together. -/
theorem eq_or_relisted (htails : t.length = t'.length)
    (heq : listing l ++ t = listing l' ++ t') :
    (l = l' ∧ t = t') ∨ Relisted l t l' t' ∨ Relisted l' t' l t := by
  induction l generalizing l' with
  | nil =>
    cases l' with
    | nil => exact .inl ⟨rfl, heq⟩
    | cons a' l' =>
      have hlen := congrArg List.length heq
      have ha' := a'.length_bytes
      simp only [listing, List.flatMap_nil, List.flatMap_cons, List.length_append,
        List.length_nil] at hlen
      omega
  | cons a l ih =>
    cases l' with
    | nil =>
      have hlen := congrArg List.length heq
      have ha := a.length_bytes
      simp only [listing, List.flatMap_nil, List.flatMap_cons, List.length_append,
        List.length_nil] at hlen
      omega
    | cons a' l' =>
      simp only [listing, List.flatMap_cons, Artifact.bytes_eq, List.append_assoc] at heq
      rcases eq_or_slides heq with ⟨hname, heq⟩ | hslides | hslides
      · obtain ⟨ha, hrest⟩ := Artifact.tail_inj hname heq
        rw [← ha]
        rcases ih hrest with ⟨hl, ht⟩ | hlater | hlater
        · exact .inl ⟨congrArg (a :: ·) hl, ht⟩
        · exact .inr (.inl (hlater.cons a))
        · exact .inr (.inr (hlater.cons a))
      · exact .inr (.inl ⟨[], rfl, rfl, hslides⟩)
      · exact .inr (.inr ⟨[], rfl, rfl, hslides⟩)

namespace Release

def sorted (r : Release) : List Artifact := sortBy Artifact.name r.artifacts

/-- What stands between the id and the parent. -/
def header (r : Release) : Bytes := 0 :: (r.version.bytes ++ beBytes 8 r.createdAtUnix.toNat)

def parentBytes (r : Release) : Bytes := r.parentReleaseId.elim [] utf8

/-- What follows the artifacts. -/
def trailer (r : Release) : Bytes := 0 :: r.signer.toList

/-- What follows the parent. -/
def body (r : Release) : Bytes := listing r.sorted ++ r.trailer

/-- The releases say the same. The order of the artifacts is left open. -/
structure Same (r r' : Release) : Prop where
  releaseId : r.releaseId = r'.releaseId
  version : r.version = r'.version
  createdAtUnix : r.createdAtUnix = r'.createdAtUnix
  parentReleaseId : r.parentReleaseId = r'.parentReleaseId
  artifacts : r.artifacts.Perm r'.artifacts
  signer : r.signer = r'.signer

/-- How a release can have the bytes of another one. -/
inductive Confusable (r r' : Release) : Prop
  /-- No parent, and a parent with an empty id. -/
  | unparented (releaseId : r.releaseId = r'.releaseId) (header : r.header = r'.header)
      (absent : r.parentReleaseId = none) (empty : r'.parentReleaseId = some "")
      (sorted : r.sorted = r'.sorted) (signer : r.signer = r'.signer)
  /-- The name of an artifact runs into its cid. -/
  | relisted (releaseId : r.releaseId = r'.releaseId) (header : r.header = r'.header)
      (parent : r.parentBytes = r'.parentBytes)
      (relisted : Relisted r.sorted r.trailer r'.sorted r'.trailer)
  /-- The parent runs into the artifacts. -/
  | reparented (releaseId : r.releaseId = r'.releaseId) (header : r.header = r'.header)
      (slides : Slides r.parentBytes [0] r.body r'.parentBytes [0] r'.body)
  /-- The id runs into the version. -/
  | renamed (slides : Slides (utf8 r.releaseId) r.header (r.parentBytes ++ ([0] ++ r.body))
      (utf8 r'.releaseId) r'.header (r'.parentBytes ++ ([0] ++ r'.body)))

theorem bytes_eq (r : Release) :
    r.bytes = utf8 r.releaseId ++ (r.header ++ (r.parentBytes ++ ([0] ++ r.body))) := by
  simp only [bytes, canonicalBytes, header, parentBytes, body, sorted, trailer, listing,
    List.append_assoc, List.cons_append, List.nil_append]

variable {r r' : Release}

theorem Confusable.bytes_eq (h : Confusable r r') : r.bytes = r'.bytes := by
  rw [Release.bytes_eq, Release.bytes_eq]
  cases h with
  | unparented hid hheader habsent hempty hsorted hsigner =>
    have hparent : r.parentBytes = r'.parentBytes := by
      rw [parentBytes, parentBytes, habsent, hempty]
      rfl
    rw [hid, hheader, hparent, body, body, trailer, trailer, hsorted, hsigner]
  | relisted hid hheader hparent hrelisted =>
    rw [hid, hheader, hparent, body, body, hrelisted.append_eq]
  | reparented hid hheader hslides => rw [hid, hheader, hslides.append_eq]
  | renamed hslides => rw [hslides.append_eq]

theorem Same.sorted_names (h : Same r r') :
    r.sorted.map Artifact.name = r'.sorted.map Artifact.name :=
  keys_sortBy_of_perm _ h.artifacts

theorem Confusable.not_same (h : Confusable r r') : ¬ Same r r' := by
  intro hsame
  cases h with
  | unparented _ _ habsent hempty =>
    have hparent := hsame.parentReleaseId
    rw [habsent, hempty] at hparent
    cases hparent
  | relisted _ _ _ hrelisted => exact hrelisted.names_ne hsame.sorted_names
  | reparented _ _ hslides =>
    refine hslides.ne (List.cons_ne_nil _ _) ?_
    rw [parentBytes, parentBytes, hsame.parentReleaseId]
  | renamed hslides => exact hslides.ne (List.cons_ne_nil _ _) (congrArg utf8 hsame.releaseId)

theorem Same.symm (h : Same r r') : Same r' r :=
  ⟨h.releaseId.symm, h.version.symm, h.createdAtUnix.symm, h.parentReleaseId.symm,
    h.artifacts.symm, h.signer.symm⟩

/-- The header has a fixed width. -/
theorem header_inj {x y : Bytes} (h : r.header ++ x = r'.header ++ y) :
    r.version = r'.version ∧ r.createdAtUnix = r'.createdAtUnix ∧ x = y := by
  simp only [header, List.cons_append, List.append_assoc, List.cons.injEq, true_and] at h
  obtain ⟨hversion, h⟩ := selfDelimiting_version _ _ _ _ h
  obtain ⟨hcreated, h⟩ := beBytes_u64_inj h
  exact ⟨hversion, hcreated, h⟩

theorem header_congr (hversion : r.version = r'.version)
    (hcreated : r.createdAtUnix = r'.createdAtUnix) : r.header = r'.header := by
  rw [header, header, hversion, hcreated]

/-- The signer is the last 32 bytes. -/
theorem signer_eq (h : r.bytes = r'.bytes) : r.signer = r'.signer := by
  obtain ⟨-, hsigner⟩ := List.append_inj' h (by rw [List.Vector.toList_length,
    List.Vector.toList_length])
  exact List.Vector.eq _ _ hsigner

/-- The parents have the same bytes. -/
theorem parent_cases (h : r.parentBytes = r'.parentBytes) :
    r.parentReleaseId = r'.parentReleaseId ∨
      r.parentReleaseId = none ∧ r'.parentReleaseId = some "" ∨
      r'.parentReleaseId = none ∧ r.parentReleaseId = some "" := by
  unfold parentBytes at h
  cases hp : r.parentReleaseId with
  | none =>
    cases hp' : r'.parentReleaseId with
    | none => exact .inl rfl
    | some p' =>
      rw [hp, hp'] at h
      obtain rfl : "" = p' := utf8_injective h
      exact .inr (.inl ⟨rfl, rfl⟩)
  | some p =>
    cases hp' : r'.parentReleaseId with
    | none =>
      rw [hp, hp'] at h
      obtain rfl : p = "" := utf8_injective h
      exact .inr (.inr ⟨rfl, rfl⟩)
    | some p' =>
      rw [hp, hp'] at h
      obtain rfl : p = p' := utf8_injective h
      exact .inl rfl

/-- Releases with the same bytes say the same, or the one can be taken for the other. -/
theorem eq_or_confusable (h : r.bytes = r'.bytes) :
    Same r r' ∨ Confusable r r' ∨ Confusable r' r := by
  have hsigner := signer_eq h
  rw [bytes_eq, bytes_eq] at h
  rcases eq_or_slides h with ⟨hid, h⟩ | hslides | hslides
  · have hid := utf8_injective hid
    obtain ⟨hversion, hcreated, h⟩ := header_inj h
    have hheader := header_congr hversion hcreated
    rcases eq_or_slides h with ⟨hparent, h⟩ | hslides | hslides
    · have h : listing r.sorted ++ r.trailer = listing r'.sorted ++ r'.trailer :=
        (List.cons.inj h).2
      rcases eq_or_relisted (by simp [trailer]) h with
        ⟨hsorted, -⟩ | hrelisted | hrelisted
      · have hperm : r.artifacts.Perm r'.artifacts :=
          (sortBy_perm Artifact.name r.artifacts).symm.trans
            ((List.Perm.of_eq hsorted).trans (sortBy_perm Artifact.name r'.artifacts))
        rcases parent_cases hparent with hparent | ⟨habsent, hempty⟩ | ⟨habsent, hempty⟩
        · exact .inl ⟨hid, hversion, hcreated, hparent, hperm, hsigner⟩
        · exact .inr (.inl (.unparented hid hheader habsent hempty hsorted hsigner))
        · exact .inr (.inr (.unparented hid.symm hheader.symm habsent hempty hsorted.symm
            hsigner.symm))
      · exact .inr (.inl (.relisted hid hheader hparent hrelisted))
      · exact .inr (.inr (.relisted hid.symm hheader.symm hparent.symm hrelisted))
    · exact .inr (.inl (.reparented hid hheader hslides))
    · exact .inr (.inr (.reparented hid.symm hheader.symm hslides))
  · exact .inr (.inl (.renamed hslides))
  · exact .inr (.inr (.renamed hslides))

/-! ## The order of the artifacts -/

/-- Listing the artifacts in another order leaves the bytes alone if and only if artifacts of one
name stay in order. -/
theorem bytes_eq_of_perm_iff {artifacts : List Artifact} (hperm : r.artifacts.Perm artifacts) :
    r.bytes = { r with artifacts }.bytes ↔
      ∀ name, (r.artifacts.filter fun a => a.name = name) =
        artifacts.filter fun a => a.name = name := by
  rw [← sortBy_eq_iff Artifact.name]
  constructor
  · intro h
    rw [bytes_eq, bytes_eq] at h
    have h : listing r.sorted ++ r.trailer =
        listing (sortBy Artifact.name artifacts) ++ r.trailer :=
      (List.cons.inj (List.append_cancel_left (List.append_cancel_left
        (List.append_cancel_left h)))).2
    have hnames := keys_sortBy_of_perm Artifact.name hperm
    rcases eq_or_relisted rfl h with ⟨hsorted, -⟩ | hrelisted | hrelisted
    · exact hsorted
    · exact absurd hnames hrelisted.names_ne
    · exact absurd hnames.symm hrelisted.names_ne
  · intro h
    simp only [bytes, canonicalBytes, h]

end Release

/-! ## What is accepted -/

section Accepted

variable [Ed25519]

/-- Nobody can make a signature under the key of another: the bytes of whatever verifies were
signed. -/
def Unforgeable (signed : Set Release) : Prop :=
  ∀ (r : Release) (sig : Signature), Ed25519.verify r.signer r.bytes sig = true →
    ∃ o ∈ signed, o.bytes = r.bytes

/-- Releases with the same bytes say the same unless the one can be taken for the other. All that is
accepted says what was signed if and only if whatever can be taken for a release that was signed
says what was signed. And artifacts may be listed in any order that keeps those of one name. -/
theorem manifest_pinned_iff (signed : Set Release)
    (hsigned : ∀ o ∈ signed, ∃ sig, Ed25519.verify o.signer o.bytes sig = true)
    (hunforgeable : Unforgeable signed) :
    (∀ r r' : Release, (r.bytes = r'.bytes → r.Same r') ↔
      ¬ r.Confusable r' ∧ ¬ r'.Confusable r) ∧
    ((∀ m : ReleaseManifest, verifyManifest m = .ok () → ∃ o ∈ signed, o.Same m.toRelease) ↔
      ∀ o ∈ signed, ∀ r : Release, o.Confusable r ∨ r.Confusable o → ∃ o' ∈ signed, o'.Same r) ∧
    ∀ (r : Release) (artifacts : List Artifact), r.artifacts.Perm artifacts →
      (r.bytes = { r with artifacts }.bytes ↔
        ∀ name, (r.artifacts.filter fun a => a.name = name) =
          artifacts.filter fun a => a.name = name) := by
  refine ⟨fun r r' => ⟨fun h => ⟨fun hc => ?_, fun hc => ?_⟩, fun ⟨hnot, hnot'⟩ hbytes => ?_⟩,
    ⟨fun h o ho r hc => ?_, fun h m hok => ?_⟩, fun r artifacts => Release.bytes_eq_of_perm_iff⟩
  · exact hc.not_same (h hc.bytes_eq)
  · exact hc.not_same (h hc.bytes_eq.symm).symm
  · exact (Release.eq_or_confusable hbytes).resolve_right (not_or.mpr ⟨hnot, hnot'⟩)
  · -- The signature of the one is put on the other.
    have hbytes : o.bytes = r.bytes := hc.elim (·.bytes_eq) (·.bytes_eq.symm)
    obtain ⟨sig, hsig⟩ := hsigned o ho
    rw [Release.signer_eq hbytes, hbytes] at hsig
    exact h ⟨r, sig⟩ (verifyManifest_eq_ok.mpr hsig)
  · obtain ⟨o, ho, hbytes⟩ := hunforgeable _ _ (verifyManifest_eq_ok.mp hok)
    rcases Release.eq_or_confusable hbytes with hsame | hc
    · exact ⟨o, ho, hsame⟩
    · exact h o ho _ hc

end Accepted

namespace Demo

def artifact (name : String) : Artifact := ⟨name, .replicate 32 97, 0x6161616161616161⟩

def root (artifacts : List Artifact) : Release :=
  ⟨"v1.0.0", ⟨1, 0, 0⟩, 1700000000, none, artifacts, .replicate 32 7⟩

/-- The same, below a release with an empty id. -/
def orphan (artifacts : List Artifact) : Release :=
  { root artifacts with parentReleaseId := some "" }

/-- The first artifact with the name of the second one, as a name. -/
def runOn : Artifact :=
  artifact "a\x00aaaaaaaaaaaaaaaaaaaaaaaaaaaaaaaaaaaaaaaab"

theorem confusable_orphan : (root []).Confusable (orphan []) :=
  .unparented rfl rfl rfl rfl rfl rfl

/-- An absent parent and an empty one have the same bytes, and so have two artifacts and one. -/
theorem not_pinned : (root []).bytes = (orphan []).bytes ∧
    (root []).parentReleaseId ≠ (orphan []).parentReleaseId ∧
    (root [artifact "a", artifact "b"]).bytes = (root [runOn]).bytes ∧
    ¬ ∀ r r' : Release, r.bytes = r'.bytes → r.Same r' := by
  refine ⟨confusable_orphan.bytes_eq, nofun, by decide +kernel, fun h => ?_⟩
  exact confusable_orphan.not_same (h _ _ confusable_orphan.bytes_eq)

/-- Only the signature of the release without a parent is good. -/
@[reducible] def rootSigned : Ed25519 where
  publicKey _ := .replicate 32 7
  sign _ _ := .replicate 64 0
  verify key msg _ := key == .replicate 32 7 && msg == (root []).bytes

attribute [local instance] rootSigned

/-- The manifest with the empty parent is accepted although no such release was signed. -/
theorem manifest_pinned_iff_root : ¬ ∀ m : ReleaseManifest, verifyManifest m = .ok () →
    ∃ o ∈ ({root []} : Set Release), o.Same m.toRelease := by
  intro h
  have hsigned : ∀ o ∈ ({root []} : Set Release), ∃ sig,
      Ed25519.verify o.signer o.bytes sig = true := by
    rintro o rfl
    exact ⟨.replicate 64 0, by simp [Ed25519.verify, root]⟩
  have hunforgeable : Unforgeable {root []} := by
    intro r sig hr
    simp only [Ed25519.verify, Bool.and_eq_true, beq_iff_eq] at hr
    exact ⟨root [], rfl, hr.2.symm⟩
  obtain ⟨o, rfl, hsame⟩ := (manifest_pinned_iff {root []} hsigned hunforgeable).2.1.mp h _ rfl
    (orphan []) (.inl confusable_orphan)
  exact confusable_orphan.not_same hsame

end Demo

end P2P333.Release333
