import P2P333.Release333.Manifest

/-!
# Provenance chains

`333-release/src/lib.rs`: releases that were accepted, each below its parent, and the walk from a
release up to its root. The walk has no bound of its own: it ends as versions get smaller.

Results:
1. `append_cases`: what an append that is accepted has checked.
2. `Inv.lineage`: every release has a lineage up to a release without a parent.
3. `ancestry_eq`: the walk returns the lineage.
4. `ancestry_wellFounded`: the whole, for every history of the chain.
-/

namespace P2P333.Release333

open Lib Consensus333 Std

namespace Version

def key (v : Version) : ℕ ×ₗ ℕ ×ₗ ℕ := toLex (v.major.toNat, toLex (v.minor.toNat, v.patch.toNat))

theorem key_injective : Function.Injective key := by
  rintro ⟨major, minor, patch⟩ ⟨major', minor', patch'⟩ h
  have h : (major.toNat, minor.toNat, patch.toNat) = (major'.toNat, minor'.toNat, patch'.toNat) := h
  simp only [Prod.mk.injEq, UInt32.toNat_inj] at h
  rw [h.1, h.2.1, h.2.2]

/-- The derived order, lexicographic. -/
instance : LinearOrder Version := .lift' key key_injective

instance : WellFoundedLT Version := ⟨InvImage.wf key wellFounded_lt⟩

end Version

structure ProvenanceChain where
  releases : OrdMap String ReleaseManifest
  trustedSigners : List NodeId

namespace ProvenanceChain

def new : ProvenanceChain := ⟨∅, []⟩

def trust (c : ProvenanceChain) (signer : NodeId) : ProvenanceChain :=
  { c with trustedSigners := c.trustedSigners ++ [signer] }

def isTrusted (c : ProvenanceChain) (signer : NodeId) : Bool :=
  c.trustedSigners.any fun s => s == signer

/-- What is wrong with the parent. -/
def checkParent (c : ProvenanceChain) (m : ReleaseManifest) : Except ReleaseError Unit :=
  match m.parentReleaseId with
  | none => .ok ()
  | some parentId =>
    match c.releases[parentId]? with
    | none => .error (.unknownParent parentId)
    | some parent =>
      if m.version ≤ parent.version then .error (.semverRegression m.version parent.version)
      else .ok ()

def check [Ed25519] (c : ProvenanceChain) (m : ReleaseManifest) : Except ReleaseError Unit :=
  if ¬ c.isTrusted m.signer then .error (.unknownSigner m.signer)
  else do
    verifyManifest m
    if c.releases.contains m.releaseId then .error (.duplicateRelease m.releaseId)
    else c.checkParent m

def append [Ed25519] (c : ProvenanceChain) (m : ReleaseManifest) :
    Except ReleaseError Unit × ProvenanceChain :=
  match c.check m with
  | .error e => (.error e, c)
  | .ok () => (.ok (), { c with releases := c.releases.insert m.releaseId m })

def get (c : ProvenanceChain) (releaseId : String) : Option ReleaseManifest :=
  c.releases[releaseId]?

/-- The loop of `ancestry`, for so many rounds at most. What was pushed is reversed at the end. -/
def walk (c : ProvenanceChain) :
    Nat → Option ReleaseManifest → List ReleaseManifest → Option (List ReleaseManifest)
  | _, none, out => some out.reverse
  | 0, some _, _ => none
  | fuel + 1, some m, out => c.walk fuel (m.parentReleaseId.bind c.get) (out ++ [m])

def ancestry (c : ProvenanceChain) (fuel : Nat) (releaseId : String) :
    Option (List ReleaseManifest) :=
  c.walk fuel (c.get releaseId) []

/-- The calls of the provenance chain. -/
inductive Call where
  | trust (signer : NodeId)
  | append (m : ReleaseManifest)

def call [Ed25519] (c : ProvenanceChain) : Call → Except ReleaseError Unit × ProvenanceChain
  | .trust signer => (.ok (), c.trust signer)
  | .append m => c.append m

def run [Ed25519] (calls : List Call) : ProvenanceChain := Machine.after call new calls

/-! ## Lineages -/

/-- The path to a release from one without a parent. -/
inductive Lineage (c : ProvenanceChain) : ReleaseManifest → List ReleaseManifest → Prop
  | root {m : ReleaseManifest} (parentless : m.parentReleaseId = none) : Lineage c m [m]
  | child {m parent : ReleaseManifest} {parentId : String} {path : List ReleaseManifest}
      (link : m.parentReleaseId = some parentId) (stored : c.get parentId = some parent)
      (older : parent.version < m.version) (above : Lineage c parent path) :
      Lineage c m (path ++ [m])

/-- Releases are stored under their ids, below parents with smaller versions. -/
structure Inv (c : ProvenanceChain) : Prop where
  releaseId : ∀ id m, c.get id = some m → m.releaseId = id
  parent : ∀ id m, c.get id = some m → ∀ parentId ∈ m.parentReleaseId,
    ∃ parent, c.get parentId = some parent ∧ parent.version < m.version

/-- All that is stored in the one is stored in the other. -/
def Extends (c c' : ProvenanceChain) : Prop := ∀ id m, c.get id = some m → c'.get id = some m

variable {c c' : ProvenanceChain} {m : ReleaseManifest} {path : List ReleaseManifest}

/-- Induction on the version. -/
theorem Inv.lineage (h : Inv c) {id : String} (hm : c.get id = some m) :
    ∃ path, Lineage c m path := by
  induction hv : m.version using WellFoundedLT.induction generalizing m id with
  | ind v ih =>
    cases hp : m.parentReleaseId with
    | none => exact ⟨[m], .root hp⟩
    | some parentId =>
      obtain ⟨parent, hparent, hlt⟩ := h.parent id m hm parentId hp
      obtain ⟨path, hpath⟩ := ih parent.version (hv ▸ hlt) hparent rfl
      exact ⟨path ++ [m], .child hp hparent hlt hpath⟩

theorem Lineage.extend (h : Lineage c m path) (hext : Extends c c') : Lineage c' m path := by
  induction h with
  | root hnone => exact .root hnone
  | child hlink hstored holder _ ih => exact .child hlink (hext _ _ hstored) holder ih

theorem Lineage.walk_eq (h : Lineage c m path) {fuel : Nat} (hfuel : path.length ≤ fuel)
    (out : List ReleaseManifest) : c.walk fuel (some m) out = some (path ++ out.reverse) := by
  induction h generalizing fuel out with
  | @root m hnone =>
    obtain ⟨fuel, rfl⟩ := Nat.exists_eq_add_of_le' hfuel
    rw [List.length_singleton, walk, hnone, Option.bind_none]
    cases fuel <;> simp [walk]
  | @child m parent parentId path hlink hstored _ _ ih =>
    rw [List.length_append, List.length_singleton] at hfuel
    obtain ⟨fuel, rfl⟩ := Nat.exists_eq_add_of_le' ((Nat.le_add_left 1 path.length).trans hfuel)
    rw [walk, hlink, Option.bind_some, hstored, ih (by omega)]
    simp

theorem ancestry_eq {id : String} (hm : c.get id = some m) (h : Lineage c m path) {fuel : Nat}
    (hfuel : path.length ≤ fuel) : c.ancestry fuel id = some path := by
  rw [ancestry, hm, h.walk_eq hfuel, List.reverse_nil, List.append_nil]

section

variable (h : Lineage c m path)
include h

theorem Lineage.getLast : path.getLast? = some m := by
  cases h with
  | root => rfl
  | child => exact List.getLast?_concat

theorem Lineage.head : ∃ root, path.head? = some root ∧ root.parentReleaseId = none := by
  induction h with
  | root hnone => exact ⟨_, rfl, hnone⟩
  | child _ _ _ _ ih =>
    obtain ⟨root, hroot, hnone⟩ := ih
    exact ⟨root, by rw [List.head?_append, hroot]; rfl, hnone⟩

theorem Lineage.stored {id : String} (hm : c.get id = some m) :
    ∀ x ∈ path, ∃ id, c.get id = some x := by
  induction h generalizing id with
  | root => exact fun x hx => ⟨id, List.mem_singleton.mp hx ▸ hm⟩
  | child _ hstored _ _ ih =>
    intro x hx
    rcases List.mem_append.mp hx with hx | hx
    · exact ih hstored x hx
    · exact ⟨id, List.mem_singleton.mp hx ▸ hm⟩

theorem Lineage.isChain (hinv : Inv c) :
    path.IsChain fun parent child => child.parentReleaseId = some parent.releaseId := by
  induction h with
  | root => exact .singleton _
  | child hlink hstored _ habove ih =>
    refine List.isChain_append.mpr ⟨ih, .singleton _, fun x hx y hy => ?_⟩
    rw [habove.getLast, Option.mem_some_iff] at hx
    rw [List.head?_cons, Option.mem_some_iff] at hy
    rw [← hx, ← hy, hlink, hinv.releaseId _ _ hstored]

theorem Lineage.versions :
    (∀ x ∈ path, x.version ≤ m.version) ∧ path.Pairwise fun x y => x.version < y.version := by
  induction h with
  | root => exact ⟨fun x hx => (List.mem_singleton.mp hx ▸ le_rfl), List.pairwise_singleton _ _⟩
  | @child m parent _ path _ _ holder _ ih =>
    have hlt : ∀ x ∈ path, x.version < m.version := fun x hx => (ih.1 x hx).trans_lt holder
    constructor
    · intro x hx
      rcases List.mem_append.mp hx with hx | hx
      · exact (hlt x hx).le
      · exact (List.mem_singleton.mp hx ▸ le_rfl)
    · refine List.pairwise_append.mpr ⟨ih.2, List.pairwise_singleton _ _, fun x hx y hy => ?_⟩
      rw [List.mem_singleton.mp hy]
      exact hlt x hx

end

/-! ## Appends -/

theorem Inv.new : Inv new where
  releaseId _ _ h := by cases (ExtTreeMap.getElem?_empty).symm.trans h
  parent _ _ h := by cases (ExtTreeMap.getElem?_empty).symm.trans h

theorem checkParent_eq_ok (c : ProvenanceChain) (m : ReleaseManifest) :
    c.checkParent m = .ok () ↔ ∀ parentId ∈ m.parentReleaseId,
      ∃ parent, c.get parentId = some parent ∧ parent.version < m.version := by
  unfold checkParent get
  cases m.parentReleaseId with
  | none => simp
  | some parentId =>
    cases hp : c.releases[parentId]? with
    | none => simp [hp]
    | some parent =>
      by_cases hle : m.version ≤ parent.version
      · simp [hp, hle]
      · simp [hp, hle, lt_of_not_ge hle]

theorem get_insert (c : ProvenanceChain) (m : ReleaseManifest) (id : String) :
    ({ c with releases := c.releases.insert m.releaseId m } : ProvenanceChain).get id =
      if m.releaseId = id then some m else c.get id := by
  unfold get
  rw [ExtTreeMap.getElem?_insert]
  simp only [Std.compare_eq_iff_eq]

variable [Ed25519]

/-- What was checked of a manifest that is accepted. -/
structure Accepted (c : ProvenanceChain) (m : ReleaseManifest) : Prop where
  trusted : c.isTrusted m.signer = true
  signed : Ed25519.verify m.signer m.bytes m.signature = true
  unused : c.get m.releaseId = none
  parent : ∀ parentId ∈ m.parentReleaseId,
    ∃ parent, c.get parentId = some parent ∧ parent.version < m.version

theorem check_eq_ok (c : ProvenanceChain) (m : ReleaseManifest) :
    c.check m = .ok () ↔ Accepted c m := by
  have hunused : c.releases.contains m.releaseId = false ↔ c.get m.releaseId = none := by
    rw [get, ExtTreeMap.contains_eq_isSome_getElem?, Option.isSome_eq_false_iff,
      Option.isNone_iff_eq_none]
  unfold check
  by_cases htrusted : c.isTrusted m.signer = true
  · rw [if_neg (not_not.mpr htrusted)]
    by_cases hsigned : Ed25519.verify m.signer m.bytes m.signature = true
    · rw [verifyManifest_eq_ok.mpr hsigned]
      cases hcontains : c.releases.contains m.releaseId with
      | true =>
        refine iff_of_false nofun fun h => ?_
        rw [hunused.mpr h.unused] at hcontains
        cases hcontains
      | false =>
        refine Iff.trans (checkParent_eq_ok c m) ⟨fun h => ?_, fun h => h.parent⟩
        exact ⟨htrusted, hsigned, hunused.mp hcontains, h⟩
    · refine iff_of_false (fun h => ?_) fun h => hsigned h.signed
      rw [verifyManifest, if_neg hsigned] at h
      cases h
  · rw [if_pos htrusted]
    exact iff_of_false nofun fun h => htrusted h.trusted

theorem append_cases (c : ProvenanceChain) (m : ReleaseManifest) :
    ((c.append m).1 = .ok () ∧ Accepted c m ∧
        (c.append m).2 = { c with releases := c.releases.insert m.releaseId m }) ∨
      ∃ e, (c.append m).1 = .error e ∧ (c.append m).2 = c := by
  unfold append
  cases hcheck : c.check m with
  | error e => exact .inr ⟨e, rfl, rfl⟩
  | ok => exact .inl ⟨rfl, (check_eq_ok c m).mp hcheck, rfl⟩

/-- Ids are written once. -/
theorem extends_call (c : ProvenanceChain) (a : Call) : Extends c (c.call a).2 := by
  intro id x hx
  cases a with
  | trust signer => exact hx
  | append m =>
    rcases append_cases c m with ⟨-, haccepted, hnext⟩ | ⟨e, -, hnext⟩
    · have hne : m.releaseId ≠ id := by
        rintro rfl
        cases haccepted.unused.symm.trans hx
      rw [call, hnext, get_insert, if_neg hne]
      exact hx
    · rw [call, hnext]
      exact hx

theorem extends_after (c : ProvenanceChain) (later : List Call) :
    Extends c (Machine.after call c later) :=
  Machine.after_invariant
  (I := Extends c) (fun c' a h id m hm => extends_call c' a id m (h id m hm))
    (fun _ _ hm => hm) later

/-- What is stored after a call. -/
theorem stored_call {a : Call} {id : String} (h : (c.call a).2.get id = some m) :
    c.get id = some m ∨ a = .append m ∧ m.releaseId = id ∧ Accepted c m := by
  cases a with
  | trust signer => exact .inl h
  | append x =>
    rw [call] at h
    rcases append_cases c x with ⟨-, haccepted, hnext⟩ | ⟨e, -, hnext⟩
    · rw [hnext, get_insert] at h
      split_ifs at h with hid
      · cases h
        exact .inr ⟨rfl, hid, haccepted⟩
      · exact .inl h
    · rw [hnext] at h
      exact .inl h

theorem Inv.call (h : Inv c) (a : Call) : Inv (c.call a).2 where
  releaseId := by
    intro id x hx
    rcases stored_call hx with hold | ⟨-, hid, -⟩
    · exact h.releaseId id x hold
    · exact hid
  parent := by
    intro id x hx parentId hp
    obtain ⟨parent, hget, hlt⟩ : ∃ parent, c.get parentId = some parent ∧
        parent.version < x.version := by
      rcases stored_call hx with hold | ⟨-, -, haccepted⟩
      · exact h.parent id x hold parentId hp
      · exact haccepted.parent parentId hp
    exact ⟨parent, extends_call c a _ _ hget, hlt⟩

theorem Inv.run (calls : List Call) : Inv (run calls) :=
  Machine.after_invariant (fun _ a h => h.call a) Inv.new calls

/-! ## Histories -/

theorem run_append (calls later : List Call) :
    run (calls ++ later) = Machine.after call (run calls) later := Machine.after_append ..

/-- The release was accepted at this place of the history. -/
def AppendedIn (calls : List Call) (m : ReleaseManifest) : Prop :=
  ∃ before later, calls = before ++ .append m :: later ∧ ((run before).append m).1 = .ok () ∧
    (run before).isTrusted m.signer = true ∧ Ed25519.verify m.signer m.bytes m.signature = true

/-- Whatever is stored was accepted once. -/
theorem appended_of_stored {calls : List Call} {id : String} (h : (run calls).get id = some m) :
    AppendedIn calls m := by
  induction calls using List.reverseRecOn with
  | nil => cases (ExtTreeMap.getElem?_empty).symm.trans h
  | append_singleton calls a ih =>
    rw [run_append] at h
    rcases stored_call h with hold | ⟨rfl, -, haccepted⟩
    · obtain ⟨before, later, hcalls, hrest⟩ := ih hold
      exact ⟨before, later ++ [a], by rw [hcalls, List.append_assoc, List.cons_append], hrest⟩
    · refine ⟨calls, [], rfl, ?_, haccepted.trusted, haccepted.signed⟩
      rw [append, (check_eq_ok _ _).mpr haccepted]

/-- A path from a release without a parent. -/
structure IsPath (m : ReleaseManifest) (path : List ReleaseManifest) : Prop where
  root : ∃ root, path.head? = some root ∧ root.parentReleaseId = none
  last : path.getLast? = some m
  links : path.IsChain fun parent child => child.parentReleaseId = some parent.releaseId
  versions : path.Pairwise fun parent child => parent.version < child.version

/-- The walk from a stored release ends, now and after whatever is called later, with the path that
leads to it. And an append that is rejected changes nothing. -/
theorem ancestry_wellFounded (calls : List Call) :
    (∀ id m, (run calls).get id = some m →
      ∃ path, IsPath m path ∧ (∀ x ∈ path, AppendedIn calls x) ∧
        ∀ later fuel, path.length ≤ fuel → (run (calls ++ later)).ancestry fuel id = some path) ∧
    ∀ m e, ((run calls).append m).1 = .error e → ((run calls).append m).2 = run calls := by
  constructor
  · intro id m hm
    have hinv := Inv.run calls
    obtain ⟨path, hpath⟩ := hinv.lineage hm
    refine ⟨path, ⟨hpath.head, hpath.getLast, hpath.isChain hinv, hpath.versions.2⟩,
      fun x hx => ?_, fun later fuel hfuel => ?_⟩
    · obtain ⟨id', hx⟩ := hpath.stored hm x hx
      exact appended_of_stored hx
    · rw [run_append]
      have hext := extends_after (run calls) later
      exact ancestry_eq (hext _ _ hm) (hpath.extend hext) hfuel
  · intro m e he
    rcases append_cases (run calls) m with ⟨hok, -⟩ | ⟨-, -, hnext⟩
    · cases hok.symm.trans he
    · exact hnext

end ProvenanceChain

namespace Demo

/-- Every signature is good. -/
@[reducible] def allSigned : Ed25519 where
  publicKey _ := .replicate 32 7
  sign _ _ := .replicate 64 0
  verify _ _ _ := true

attribute [local instance] allSigned

def first : ReleaseManifest := ⟨root [], .replicate 64 0⟩

def second : ReleaseManifest :=
  ⟨{ root [] with
      releaseId := "v1.1.0"
      version := ⟨1, 1, 0⟩
      parentReleaseId := some "v1.0.0" }, .replicate 64 0⟩

def calls : List ProvenanceChain.Call :=
  [.trust (.replicate 32 7), .append first, .append second]

theorem ancestry_second : ∃ path, ProvenanceChain.IsPath second path ∧
    (ProvenanceChain.run calls).ancestry path.length "v1.1.0" = some path := by
  obtain ⟨path, hpath, -, hwalk⟩ :=
    (ProvenanceChain.ancestry_wellFounded calls).1 "v1.1.0" second (by decide +kernel)
  have hends := hwalk [] path.length le_rfl
  rw [List.append_nil] at hends
  exact ⟨path, hpath, hends⟩

end Demo

end P2P333.Release333
