import P2P333.Crdt333.Combinators
import P2P333.Lib.Newest
import P2P333.Lib.OrdMap

/-!
# Revocations

`333-iam/src/revocation.rs`: the map from the nonces of revoked tokens to the records of their
revocations, which replicas merge. A record is replaced by a strictly later one only, so that of two
records with one timestamp the one that came first stays.

Results:
1. `get_merge`: the record of a nonce after a merge.
2. `merge_comm_iff`: which maps can be merged either way.
3. `Learned.newest`: a map has the latest of what its replica has learned.
4. `converges_iff`: replicas converge on the revocations that have no ties.
-/

namespace P2P333.Iam333

open Lib Crdt333 Std
open Crdt (merge)

abbrev Nonce := String

structure RevocationEntry where
  revokedAtMs : UInt64
  reason : String
deriving DecidableEq

/-- What `v` makes of the record of its nonce. -/
def RevocationEntry.over (v : RevocationEntry) : Option RevocationEntry → RevocationEntry
  | some e => if v.revokedAtMs > e.revokedAtMs then v else e
  | none => v

def RevocationEntry.stamp (e : RevocationEntry) : Nat := e.revokedAtMs.toNat

structure RevocationMap where
  entries : OrdMap Nonce RevocationEntry

namespace RevocationMap

def new : RevocationMap := ⟨∅⟩

/-- `entry(nonce)`, modified or inserted. -/
def enter (m : RevocationMap) (nonce : Nonce) (v : RevocationEntry) : RevocationMap :=
  ⟨m.entries.alter nonce fun e => some (v.over e)⟩

def revoke (m : RevocationMap) (nonce : Nonce) (revokedAtMs : UInt64) (reason : String) :
    RevocationMap :=
  m.enter nonce ⟨revokedAtMs, reason⟩

def isRevoked (m : RevocationMap) (nonce : Nonce) : Bool := m.entries.contains nonce

def get (m : RevocationMap) (nonce : Nonce) : Option RevocationEntry := m.entries[nonce]?

instance : Crdt RevocationMap where
  merge self other := other.entries.toList.foldl (fun m (k, v) => m.enter k v) self

/-! ## One nonce -/

variable {m m' : RevocationMap} {n : Nonce} {v : RevocationEntry}

theorem ext_get (h : ∀ n, m.get n = m'.get n) : m = m' := by
  cases m
  cases m'
  exact congrArg mk (ExtTreeMap.ext_getElem? h)

theorem isRevoked_eq (m : RevocationMap) (n : Nonce) : m.isRevoked n = (m.get n).isSome :=
  ExtTreeMap.contains_eq_isSome_getElem?

theorem get_enter_self : (m.enter n v).get n = some (v.over (m.get n)) :=
  ExtTreeMap.getElem?_alter_self

theorem get_enter_of_ne {k : Nonce} (h : k ≠ n) : (m.enter k v).get n = m.get n := by
  have hcmp : ¬ compare k n = .eq := fun heq => h (LawfulEqOrd.eq_of_compare heq)
  rw [get, enter, ExtTreeMap.getElem?_alter, if_neg hcmp]
  rfl

theorem get_foldl_of_notMem {l : List (Nonce × RevocationEntry)} (h : ∀ x ∈ l, x.1 ≠ n) :
    (l.foldl (fun m (k, v) => enter m k v) m).get n = m.get n := by
  induction l generalizing m with
  | nil => rfl
  | cons x l ih =>
    rw [List.foldl_cons, ih fun y hy => h y (List.mem_cons_of_mem x hy)]
    exact get_enter_of_ne (h x List.mem_cons_self)

/-- Every nonce of a map is entered once. -/
theorem get_foldl_of_mem {l : List (Nonce × RevocationEntry)} (hkeys : (l.map Prod.fst).Nodup)
    (h : (n, v) ∈ l) :
    (l.foldl (fun m (k, v) => enter m k v) m).get n = some (v.over (m.get n)) := by
  induction l generalizing m with
  | nil => cases h
  | cons x l ih =>
    rw [List.map_cons, List.nodup_cons] at hkeys
    rw [List.foldl_cons]
    rcases List.mem_cons.mp h with rfl | h
    · have hrest : ∀ y ∈ l, y.1 ≠ n := fun y hy heq =>
        hkeys.1 (List.mem_map.mpr ⟨y, hy, heq⟩)
      rw [get_foldl_of_notMem hrest]
      exact get_enter_self
    · have hne : x.1 ≠ n := fun heq => hkeys.1 (heq ▸ List.mem_map_of_mem h)
      rw [ih hkeys.2 h, get_enter_of_ne hne]

/-- The record that stays of those of two replicas. -/
def joinEntries : Option RevocationEntry → Option RevocationEntry → Option RevocationEntry
  | o, some v => some (v.over o)
  | o, none => o

theorem get_merge (m m' : RevocationMap) (n : Nonce) :
    (merge m m').get n = joinEntries (m.get n) (m'.get n) := by
  have hmem : ∀ k v, (k, v) ∈ m'.entries.toList ↔ m'.get k = some v :=
    fun _ _ => ExtTreeMap.mem_toList_iff_getElem?_eq_some
  cases hget : m'.get n with
  | none =>
    refine get_foldl_of_notMem fun x hx heq => ?_
    have hx := (hmem x.1 x.2).mp hx
    rw [heq, hget] at hx
    cases hx
  | some v =>
    refine get_foldl_of_mem ?_ ((hmem n v).mpr hget)
    rw [ExtTreeMap.map_fst_toList_eq_keys]
    exact ExtTreeMap.nodup_keys

/-! ## The laws -/

/-- Records of equal timestamps are the same record. -/
def Agree (o o' : Option RevocationEntry) : Prop :=
  ∀ e ∈ o, ∀ e' ∈ o', e.revokedAtMs = e'.revokedAtMs → e = e'

theorem joinEntries_comm_iff {o o' : Option RevocationEntry} :
    joinEntries o o' = joinEntries o' o ↔ Agree o o' := by
  unfold joinEntries Agree RevocationEntry.over
  cases o <;> cases o' <;> grind

theorem joinEntries_assoc (o o' o'' : Option RevocationEntry) :
    joinEntries (joinEntries o o') o'' = joinEntries o (joinEntries o' o'') := by
  unfold joinEntries RevocationEntry.over
  cases o <;> cases o' <;> cases o'' <;> grind

theorem joinEntries_self (o : Option RevocationEntry) : joinEntries o o = o := by
  unfold joinEntries RevocationEntry.over
  cases o <;> grind

/-- Merging either way is the same if and only if the two maps have no tie. -/
theorem merge_comm_iff : merge m m' = merge m' m ↔ ∀ n, Agree (m.get n) (m'.get n) := by
  constructor
  · intro h n
    rw [← joinEntries_comm_iff, ← get_merge, ← get_merge, h]
  · intro h
    refine ext_get fun n => ?_
    rw [get_merge, get_merge, joinEntries_comm_iff]
    exact h n

theorem merge_assoc (a b c : RevocationMap) : merge (merge a b) c = merge a (merge b c) := by
  refine ext_get fun n => ?_
  simp only [get_merge]
  exact joinEntries_assoc _ _ _

theorem merge_idem (a : RevocationMap) : merge a a = a := by
  refine ext_get fun n => ?_
  rw [get_merge]
  exact joinEntries_self _

/-! ## Nothing is un-revoked -/

theorem isRevoked_enter (h : m.isRevoked n = true) (k : Nonce) (v : RevocationEntry) :
    (m.enter k v).isRevoked n = true := by
  by_cases hk : k = n
  · rw [isRevoked_eq, hk, get_enter_self]
    rfl
  · rw [isRevoked_eq, get_enter_of_ne hk, ← isRevoked_eq]
    exact h

theorem isRevoked_merge (m m' : RevocationMap) (n : Nonce) :
    (merge m m').isRevoked n = (m.isRevoked n || m'.isRevoked n) := by
  rw [isRevoked_eq, isRevoked_eq, isRevoked_eq, get_merge]
  cases m.get n <;> cases m'.get n <;> rfl

/-! ## What replicas learn -/

/-- A map and the revocations that it was built from. -/
inductive Learned : Set (Nonce × RevocationEntry) → RevocationMap → Prop
  | new : Learned ∅ new
  | revoke {L : Set (Nonce × RevocationEntry)} {m : RevocationMap} (h : Learned L m) (nonce : Nonce)
      (revokedAtMs : UInt64) (reason : String) :
      Learned (insert (nonce, ⟨revokedAtMs, reason⟩) L) (m.revoke nonce revokedAtMs reason)
  | merge {L L' : Set (Nonce × RevocationEntry)} {m m' : RevocationMap} (h : Learned L m)
      (h' : Learned L' m') : Learned (L ∪ L') (merge m m')

/-- The map is built from some of these revocations. -/
def Built (S : Set (Nonce × RevocationEntry)) (m : RevocationMap) : Prop := ∃ L ⊆ S, Learned L m

abbrev recordsOf (L : Set (Nonce × RevocationEntry)) (n : Nonce) : Set RevocationEntry :=
  {e | (n, e) ∈ L}

variable {L L' S : Set (Nonce × RevocationEntry)}

theorem newest_over {R : Set RevocationEntry} {o : Option RevocationEntry}
    (h : Newest RevocationEntry.stamp R o) (v : RevocationEntry) :
    Newest RevocationEntry.stamp (insert v R) (some (v.over o)) := by
  cases h with
  | none hempty => exact Newest.insert_newer fun y hy => absurd hy (hempty y)
  | @some e hmem hle =>
    simp only [RevocationEntry.over]
    split_ifs with hlater
    · exact Newest.insert_newer fun y hy => (hle y hy).trans (UInt64.lt_iff_toNat_lt.mp hlater).le
    · exact (Newest.some hmem hle).insert_older rfl (UInt64.not_lt.mp hlater)

theorem newest_joinEntries {R R' : Set RevocationEntry} {o o' : Option RevocationEntry}
    (h : Newest RevocationEntry.stamp R o) (h' : Newest RevocationEntry.stamp R' o') :
    Newest RevocationEntry.stamp (R ∪ R') (joinEntries o o') := by
  cases h' with
  | none hempty =>
    exact h.absorb Set.subset_union_left fun y hy => ⟨y, hy.resolve_right (hempty y), le_rfl⟩
  | @some v hmem hle =>
    have hv := newest_over h v
    refine hv.absorb (Set.insert_subset (.inr hmem) Set.subset_union_left) fun y hy => ?_
    rcases hy with hy | hy
    · exact ⟨y, .inr hy, le_rfl⟩
    · exact ⟨v, .inl rfl, hle y hy⟩

/-- A replica has the latest record of each nonce that it has learned of. -/
theorem Learned.newest (h : Learned L m) (n : Nonce) :
    Newest RevocationEntry.stamp (recordsOf L n) (m.get n) := by
  induction h with
  | new => exact .none fun e he => he
  | @revoke L m _ nonce revokedAtMs reason ih =>
    by_cases hn : nonce = n
    · subst hn
      have hset : recordsOf (insert (nonce, ⟨revokedAtMs, reason⟩) L) nonce =
          insert ⟨revokedAtMs, reason⟩ (recordsOf L nonce) := by
        ext e
        simp [recordsOf]
      rw [hset, RevocationMap.revoke, get_enter_self]
      exact newest_over ih _
    · have hset : recordsOf (insert (nonce, ⟨revokedAtMs, reason⟩) L) n = recordsOf L n := by
        ext e
        simp [recordsOf, Ne.symm hn]
      rw [hset, RevocationMap.revoke, get_enter_of_ne hn]
      exact ih
  | merge _ _ ih ih' =>
    rw [get_merge]
    exact newest_joinEntries ih ih'

theorem Learned.mem (h : Learned L m) (hv : m.get n = some v) : (n, v) ∈ L := by
  have hn := h.newest n
  rw [hv] at hn
  cases hn with
  | some hmem => exact hmem

/-! ## Convergence -/

/-- Replicas that exchange these revocations converge. -/
structure Converges (S : Set (Nonce × RevocationEntry)) : Prop where
  comm : ∀ a b, Built S a → Built S b → merge a b = merge b a
  assoc : ∀ a b c, Built S a → Built S b → Built S c →
    merge (merge a b) c = merge a (merge b c)
  idem : ∀ a, Built S a → merge a a = a
  exchanged : ∀ L ⊆ S, ∀ a b, Learned L a → Learned L b → a = b ∧ ∀ n, a.get n = b.get n
  keeps : ∀ a, Built S a → ∀ n, a.isRevoked n = true →
    (∀ nonce revokedAtMs reason, (a.revoke nonce revokedAtMs reason).isRevoked n = true) ∧
      ∀ b, Built S b → (merge a b).isRevoked n = true ∧ (merge b a).isRevoked n = true

/-- No nonce is revoked by two records with one timestamp. -/
def Untied (S : Set (Nonce × RevocationEntry)) : Prop :=
  ∀ n e e', (n, e) ∈ S → (n, e') ∈ S → e.revokedAtMs = e'.revokedAtMs → e = e'

theorem Untied.agree (hS : Untied S) {a b : RevocationMap} (ha : Built S a) (hb : Built S b)
    (n : Nonce) : Agree (a.get n) (b.get n) := by
  obtain ⟨L, hL, ha⟩ := ha
  obtain ⟨L', hL', hb⟩ := hb
  exact fun e he e' he' => hS n e e' (hL (ha.mem he)) (hL' (hb.mem he'))

theorem Untied.eq_of_learned (hS : Untied S) (hL : L ⊆ S) {a b : RevocationMap} (ha : Learned L a)
    (hb : Learned L b) : a = b :=
  ext_get fun n => (ha.newest n).unique (hb.newest n) fun e he e' he' =>
    fun heq => hS n e e' (hL he) (hL he') (UInt64.toNat_inj.mp heq)

theorem built_single (h : (n, v) ∈ S) : Built S (new.revoke n v.revokedAtMs v.reason) :=
  ⟨_, by simpa using h, .revoke .new n v.revokedAtMs v.reason⟩

theorem converges_iff (S : Set (Nonce × RevocationEntry)) : Converges S ↔ Untied S := by
  constructor
  · intro h n e e' he he'
    -- The two records, each in a map of its own.
    have hcomm := merge_comm_iff.mp (h.comm _ _ (built_single he) (built_single he')) n
    exact hcomm e get_enter_self e' get_enter_self
  · intro hS
    exact {
      comm := fun a b ha hb => merge_comm_iff.mpr (hS.agree ha hb)
      assoc := fun a b c _ _ _ => merge_assoc a b c
      idem := fun a _ => merge_idem a
      exchanged := fun L hL a b ha hb => by
        have heq := hS.eq_of_learned hL ha hb
        exact ⟨heq, fun n => by rw [heq]⟩
      keeps := fun a _ n hn => by
        refine ⟨fun nonce revokedAtMs reason => isRevoked_enter hn _ _, fun b _ => ?_⟩
        rw [isRevoked_merge, isRevoked_merge, hn]
        exact ⟨rfl, Bool.or_true _⟩ }

/-- Two replicas revoke a token at the same time for different reasons. -/
theorem not_converges : ∃ a b : RevocationMap,
    a = new.revoke "n1" 100 "lost" ∧ b = new.revoke "n1" 100 "stolen" ∧
      (merge a b).get "n1" = some ⟨100, "lost"⟩ ∧ (merge b a).get "n1" = some ⟨100, "stolen"⟩ ∧
      ¬ Converges Set.univ := by
  refine ⟨_, _, rfl, rfl, ?_, ?_, fun h => ?_⟩
  · rw [get_merge]
    simp only [revoke, get_enter_self]
    decide
  · rw [get_merge]
    simp only [revoke, get_enter_self]
    decide
  · have htie := (converges_iff _).mp h "n1" ⟨100, "lost"⟩ ⟨100, "stolen"⟩ trivial trivial rfl
    exact absurd htie (by decide)

end RevocationMap

end P2P333.Iam333
