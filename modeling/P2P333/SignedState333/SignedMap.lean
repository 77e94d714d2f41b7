import P2P333.Lib.Joins
import P2P333.Crdt333.Combinators
import P2P333.Kademlia333.Distance

/-!
# Signed maps

`333-signed-state/src/lib.rs`: a map of registers behind a membrane. An update goes in if its author
is authorized at that time and has signed it; the signature itself is not kept. The list of the
authorized authors is local to a replica. The JSON of a payload and the check of a signature are
parameters (`Signing`).

Results:
1. `Call.step`, `inner_replica`: after any calls a replica holds the join of what was admitted.
2. `newest_joined`, `signed_membrane`: what is read under a key is the join of the values that were
   admitted for it with the newest time.
3. `signed_converges`: replicas that admitted the same updates are the same.
-/

namespace P2P333.SignedState333

open Std Lib Crdt333 Kademlia333
open Crdt (merge)

abbrev Signature := List.Vector UInt8 64

/-- `serde_json::to_vec` and `Keypair::verify`. -/
class Signing (P : Type*) where
  toVec : P → Except String (List UInt8)
  verify : NodeId → List UInt8 → Signature → Bool

/-- Why an update is not taken. -/
inductive SignedError
  | badSignature (author : NodeId)
  | unknownAuthor (author : NodeId)
  | ser (e : String)
deriving DecidableEq

structure SignedOp (P : Type*) where
  author : NodeId
  payload : P
  sig : Signature
deriving DecidableEq

structure LwwPut (K V : Type*) where
  key : K
  ts : UInt64
  value : V
deriving DecidableEq

namespace SignedOp

variable {P : Type*} [Signing P]

def verify (op : SignedOp P) : Except SignedError Unit :=
  match Signing.toVec op.payload with
  | .error e => .error (.ser e)
  | .ok bytes =>
    if Signing.verify P op.author bytes op.sig then .ok () else .error (.badSignature op.author)

end SignedOp

structure SignedLwwMap (K V : Type*) [LinearOrder K] where
  authorized : OrdMap NodeId Unit
  inner : LwwMap K V

variable {K V : Type*} [LinearOrder K]

namespace SignedLwwMap

def new : SignedLwwMap K V := ⟨∅, .new⟩

def authorize (m : SignedLwwMap K V) (n : NodeId) : SignedLwwMap K V :=
  { m with authorized := m.authorized.insert n () }

def isAuthorized (m : SignedLwwMap K V) (n : NodeId) : Bool := m.authorized.contains n

def get (m : SignedLwwMap K V) (k : K) : Option V := m.inner.get k

/-- Unknown authors are turned away before their signature is looked at. -/
def apply [Crdt V] [Signing (LwwPut K V)] (m : SignedLwwMap K V) (op : SignedOp (LwwPut K V)) :
    Except SignedError (SignedLwwMap K V) :=
  if m.isAuthorized op.author then
    match op.verify with
    | .error e => .error e
    | .ok () => .ok { m with inner := m.inner.put op.payload.key op.payload.ts op.payload.value }
  else .error (.unknownAuthor op.author)

end SignedLwwMap

/-! ## What is read -/

/-- What an update puts into the map. -/
def SignedOp.item (op : SignedOp (LwwPut K V)) : LwwMap K V :=
  .rawItem op.payload.key op.payload.ts op.payload.value

/-- What updates make of a key: the newest time, and the join of the values put at that time. -/
structure Newest [Crdt V] (P : SignedOp (LwwPut K V) → Prop) (k : K) (e : UInt64 × V) : Prop where
  le : ∀ op, P op → op.payload.key = k → op.payload.ts.toNat ≤ e.1.toNat
  joined : ∃ v vs, e.2 = vs.foldl merge v ∧ ∀ u, u ∈ v :: vs ↔
    ∃ op, P op ∧ op.payload.key = k ∧ op.payload.ts = e.1 ∧ op.payload.value = u

section Read

variable {P P' : SignedOp (LwwPut K V) → Prop} {op : SignedOp (LwwPut K V)} {k : K}
  {e : UInt64 × V}

theorem getWithTs_item_self : op.item.getWithTs op.payload.key =
    some (op.payload.ts, op.payload.value) := by
  rw [LwwMap.getWithTs_eq_some]
  exact List.mem_singleton_self _

theorem getWithTs_item_of_ne (h : op.payload.key ≠ k) : op.item.getWithTs k = none := by
  rw [Option.eq_none_iff_forall_ne_some]
  rintro ⟨ts, v⟩ hget
  have hmem : (k, ts, v) ∈ [(op.payload.key, op.payload.ts, op.payload.value)] :=
    LwwMap.getWithTs_eq_some.mp hget
  exact h (Prod.mk.inj (List.mem_singleton.mp hmem)).1.symm

variable [Crdt V]

section

omit [LinearOrder K]

/-- An update of another key. -/
theorem Newest.other (hnewest : Newest P k e) (hkey : op.payload.key ≠ k)
    (hP : ∀ op', P' op' ↔ P op' ∨ op' = op) : Newest P' k e := by
  have hsame : ∀ op', op'.payload.key = k → (P' op' ↔ P op') := fun op' hkey' => by
    rw [hP, or_iff_left]
    rintro rfl
    exact hkey hkey'
  obtain ⟨v, vs, hvalue, hvs⟩ := hnewest.joined
  refine ⟨fun op' hop' hkey' => hnewest.le op' ((hsame op' hkey').mp hop') hkey', v, vs, hvalue,
    fun u => (hvs u).trans (exists_congr fun op' => ?_)⟩
  rw [and_congr_left]
  exact fun h => (hsame op' h.1).symm

/-- The first update of a key. -/
theorem Newest.first (hP : ∀ op', P' op' ∧ op'.payload.key = op.payload.key ↔ op' = op) :
    Newest P' op.payload.key (op.payload.ts, op.payload.value) := by
  constructor
  · intro op' hop' hkey'
    rw [(hP op').mp ⟨hop', hkey'⟩]
  · refine ⟨op.payload.value, [], rfl, fun u => ?_⟩
    rw [List.mem_singleton]
    constructor
    · rintro rfl
      obtain ⟨hop, -⟩ := (hP op).mpr rfl
      exact ⟨op, hop, rfl, rfl, rfl⟩
    · rintro ⟨op', hop', hkey', -, rfl⟩
      rw [(hP op').mp ⟨hop', hkey'⟩]

/-- An update of a key that has been updated before: the later time wins, and at equal times the
values are joined. -/
theorem Newest.same (hnewest : Newest P op.payload.key e) (hP : ∀ op', P' op' ↔ P op' ∨ op' = op) :
    Newest P' op.payload.key (newer e (op.payload.ts, op.payload.value)) := by
  obtain ⟨hle, v, vs, hvalue, hvs⟩ := hnewest
  have hnew : P' op := (hP op).mpr (.inr rfl)
  rcases Nat.lt_trichotomy e.1.toNat op.payload.ts.toNat with h | h | h
  · rw [newer_of_lt h]
    refine ⟨fun op' hop' hkey' => ?_, op.payload.value, [], rfl, fun u => ?_⟩
    · rcases (hP op').mp hop' with hop' | rfl
      · exact (hle op' hop' hkey').trans h.le
      · exact le_rfl
    · rw [List.mem_singleton]
      constructor
      · rintro rfl
        exact ⟨op, hnew, rfl, rfl, rfl⟩
      · rintro ⟨op', hop', hkey', hts', rfl⟩
        rcases (hP op').mp hop' with hop' | rfl
        -- nothing before was as late as this
        · have hbound := hle op' hop' hkey'
          rw [hts'] at hbound
          exact absurd h hbound.not_gt
        · rfl
  · rw [newer_of_eq h]
    refine ⟨fun op' hop' hkey' => ?_, v, vs ++ [op.payload.value], ?_, fun u => ?_⟩
    · rcases (hP op').mp hop' with hop' | rfl
      · exact hle op' hop' hkey'
      · exact h.ge
    · rw [List.foldl_append, ← hvalue]
      rfl
    · rw [← List.cons_append, List.mem_append, hvs, List.mem_singleton]
      constructor
      · rintro (⟨op', hop', hrest⟩ | rfl)
        · exact ⟨op', (hP op').mpr (.inl hop'), hrest⟩
        · exact ⟨op, hnew, rfl, UInt64.toNat_inj.mp h.symm, rfl⟩
      · rintro ⟨op', hop', hrest⟩
        rcases (hP op').mp hop' with hop' | rfl
        · exact .inl ⟨op', hop', hrest⟩
        · exact .inr hrest.2.2.symm
  · rw [newer_of_gt h]
    refine ⟨fun op' hop' hkey' => ?_, v, vs, hvalue, fun u => (hvs u).trans ?_⟩
    · rcases (hP op').mp hop' with hop' | rfl
      · exact hle op' hop' hkey'
      · exact h.le
    · refine exists_congr fun op' => and_congr_left fun hrest => ?_
      rw [hP, or_iff_left]
      -- the update is older than what is there
      rintro rfl
      rw [hrest.2.1] at h
      exact lt_irrefl _ h

end

/-- What is read in a join of updates. -/
theorem newest_joined (ops : List (SignedOp (LwwPut K V))) (k : K) :
    match ((ops.map SignedOp.item).foldl merge (.new : LwwMap K V)).getWithTs k with
    | none => ∀ op ∈ ops, op.payload.key ≠ k
    | some e => Newest (· ∈ ops) k e := by
  induction ops using List.reverseRecOn with
  | nil => exact fun op h => absurd h List.not_mem_nil
  | append_singleton ops op ih =>
    have hmem : ∀ op', op' ∈ ops ++ [op] ↔ op' ∈ ops ∨ op' = op := fun op' => by
      rw [List.mem_append, List.mem_singleton]
    rw [List.map_append, List.foldl_append, List.map_singleton, List.foldl_cons, List.foldl_nil,
      LwwMap.getWithTs_merge]
    by_cases hkey : op.payload.key = k
    · subst hkey
      rw [getWithTs_item_self]
      cases hget : ((ops.map SignedOp.item).foldl merge (.new : LwwMap K V)).getWithTs
          op.payload.key with
      | none =>
        rw [hget] at ih
        refine Newest.first fun op' => ⟨fun h => ?_, fun h => ⟨(hmem op').mpr (.inr h), by rw [h]⟩⟩
        exact ((hmem op').mp h.1).resolve_left fun hop' => ih op' hop' h.2
      | some e =>
        rw [hget] at ih
        exact Newest.same ih hmem
    · rw [getWithTs_item_of_ne hkey]
      cases hget : ((ops.map SignedOp.item).foldl merge (.new : LwwMap K V)).getWithTs k with
      | none =>
        rw [hget] at ih
        intro op' hop'
        rcases (hmem op').mp hop' with hop' | rfl
        · exact ih op' hop'
        · exact hkey
      | some e =>
        rw [hget] at ih
        exact Newest.other ih hkey hmem

end Read

/-! ## Runs -/

/-- The calls of the map. -/
inductive Call (K V : Type*)
  | authorize (n : NodeId)
  | apply (op : SignedOp (LwwPut K V))

variable [Crdt V] [Signing (LwwPut K V)]

/-- An update that is turned away changes nothing. -/
def Call.step (m : SignedLwwMap K V) : Call K V → SignedLwwMap K V
  | .authorize n => m.authorize n
  | .apply op =>
    match m.apply op with
    | .ok m' => m'
    | .error _ => m

/-- A replica that has been called so. -/
def replica (calls : List (Call K V)) : SignedLwwMap K V := calls.foldl Call.step .new

/-- The update was signed by its author, and came when the author was authorized. -/
def Admits (calls : List (Call K V)) (op : SignedOp (LwwPut K V)) : Prop :=
  op.verify = .ok () ∧
    ∃ before after, calls = before ++ .apply op :: after ∧ .authorize op.author ∈ before

section Accepts

variable {calls : List (Call K V)} {op : SignedOp (LwwPut K V)} {c : Call K V}

omit [LinearOrder K] [Crdt V] in
theorem admits_concat : Admits (calls ++ [c]) op ↔ Admits calls op ∨
    op.verify = .ok () ∧ c = .apply op ∧ .authorize op.author ∈ calls := by
  constructor
  · rintro ⟨hverify, before, after, heq, hauthor⟩
    rcases List.eq_nil_or_concat after with rfl | ⟨rest, last, rfl⟩
    · obtain ⟨rfl, hlast⟩ := List.append_inj' heq rfl
      exact .inr ⟨hverify, List.singleton_inj.mp hlast, hauthor⟩
    · rw [List.concat_eq_append, ← List.cons_append, ← List.append_assoc] at heq
      obtain ⟨rfl, -⟩ := List.append_inj' heq rfl
      exact .inl ⟨hverify, before, rest, rfl, hauthor⟩
  · rintro (⟨hverify, before, after, rfl, hauthor⟩ | ⟨hverify, rfl, hauthor⟩)
    · exact ⟨hverify, before, after ++ [c], by simp, hauthor⟩
    · exact ⟨hverify, calls, [], rfl, hauthor⟩

theorem replica_concat : replica (calls ++ [c]) = c.step (replica calls) := by
  rw [replica, List.foldl_append]
  rfl

omit [Crdt V] [Signing (LwwPut K V)] in
theorem isAuthorized_authorize (m : SignedLwwMap K V) (n n' : NodeId) :
    (m.authorize n).isAuthorized n' = true ↔ m.isAuthorized n' = true ∨ n' = n := by
  unfold SignedLwwMap.authorize SignedLwwMap.isAuthorized
  rw [ExtTreeMap.contains_insert, Bool.or_eq_true, beq_iff_eq, LawfulEqCmp.compare_eq_iff_eq,
    or_comm, eq_comm (a := n)]

theorem apply_admitted {m : SignedLwwMap K V} (hauthor : m.isAuthorized op.author = true)
    (hverify : op.verify = .ok ()) :
    m.apply op = .ok { m with inner := merge m.inner op.item } := by
  unfold SignedLwwMap.apply
  rw [if_pos hauthor, hverify]
  rfl

theorem apply_refused {m : SignedLwwMap K V}
    (h : ¬ (op.verify = .ok () ∧ m.isAuthorized op.author = true)) :
    ∃ e, m.apply op = .error e := by
  unfold SignedLwwMap.apply
  split
  case isFalse => exact ⟨_, rfl⟩
  case isTrue hauthor =>
    cases hverify : op.verify with
    | error e => exact ⟨e, rfl⟩
    | ok u => exact absurd ⟨hverify, hauthor⟩ h

theorem step_admitted {m : SignedLwwMap K V} (hauthor : m.isAuthorized op.author = true)
    (hverify : op.verify = .ok ()) :
    (Call.apply op).step m = { m with inner := merge m.inner op.item } := by
  show (match m.apply op with | .ok m' => m' | .error _ => m) = _
  rw [apply_admitted hauthor hverify]

theorem step_refused {m : SignedLwwMap K V}
    (h : ¬ (op.verify = .ok () ∧ m.isAuthorized op.author = true)) :
    (Call.apply op).step m = m := by
  obtain ⟨e, he⟩ := apply_refused h
  show (match m.apply op with | .ok m' => m' | .error _ => m) = _
  rw [he]

theorem isAuthorized_replica (calls : List (Call K V)) (n : NodeId) :
    (replica calls).isAuthorized n = true ↔ .authorize n ∈ calls := by
  induction calls using List.reverseRecOn with
  | nil =>
    have hnew : (replica ([] : List (Call K V))).isAuthorized n = false :=
      ExtTreeMap.contains_empty
    rw [hnew]
    exact ⟨fun h => absurd h Bool.false_ne_true, fun h => absurd h List.not_mem_nil⟩
  | append_singleton calls c ih =>
    rw [replica_concat, List.mem_append, List.mem_singleton, ← ih]
    cases c with
    | authorize n' =>
      show ((replica calls).authorize n').isAuthorized n = true ↔ _
      rw [isAuthorized_authorize, Call.authorize.injEq]
    | apply op =>
      have hother : Call.authorize n ≠ .apply op := fun h => by cases h
      rw [or_iff_left hother]
      by_cases h : op.verify = .ok () ∧ (replica calls).isAuthorized op.author = true
      · rw [step_admitted h.2 h.1]
        rfl
      · rw [step_refused h]

/-- A replica holds the join of what was admitted. -/
theorem inner_replica (calls : List (Call K V)) :
    ∃ ops : List (SignedOp (LwwPut K V)),
      (replica calls).inner = (ops.map SignedOp.item).foldl merge .new ∧
        ∀ op, op ∈ ops ↔ Admits calls op := by
  induction calls using List.reverseRecOn with
  | nil =>
    refine ⟨[], rfl, fun op => ⟨fun h => absurd h List.not_mem_nil, ?_⟩⟩
    rintro ⟨-, before, after, heq, -⟩
    exact absurd heq (List.append_ne_nil_of_right_ne_nil before (List.cons_ne_nil _ _)).symm
  | append_singleton calls c ih =>
    obtain ⟨ops, hinner, hops⟩ := ih
    cases c with
    | authorize n =>
      refine ⟨ops, by rw [replica_concat]; exact hinner, fun op => ?_⟩
      rw [hops, admits_concat]
      exact (or_iff_left fun h => by cases h.2.1).symm
    | apply op =>
      by_cases h : op.verify = .ok () ∧ (replica calls).isAuthorized op.author = true
      · refine ⟨ops ++ [op], ?_, fun op' => ?_⟩
        · rw [replica_concat, step_admitted h.2 h.1, List.map_append, List.foldl_append, ← hinner]
          rfl
        · rw [List.mem_append, List.mem_singleton, hops, admits_concat]
          refine or_congr_right ⟨?_, fun h' => by cases h'.2.1; rfl⟩
          rintro rfl
          exact ⟨h.1, rfl, (isAuthorized_replica calls _).mp h.2⟩
      · refine ⟨ops, by rw [replica_concat, step_refused h, hinner], fun op' => ?_⟩
        rw [hops, admits_concat]
        refine (or_iff_left ?_).symm
        rintro ⟨hverify, heq, hauthor⟩
        cases heq
        exact h ⟨hverify, (isAuthorized_replica calls _).mpr hauthor⟩

/-- Replicas that admitted the same updates are the same, whatever the order in which the updates
came and however often each one did. -/
theorem signed_converges [LawfulCrdt V] {calls calls' : List (Call K V)}
    (h : ∀ op, Admits calls op ↔ Admits calls' op) :
    (replica calls).inner = (replica calls').inner := by
  obtain ⟨ops, hinner, hops⟩ := inner_replica calls
  obtain ⟨ops', hinner', hops'⟩ := inner_replica calls'
  have hsame : ∀ op, op ∈ ops ↔ op ∈ ops' := fun op => by rw [hops, hops', h]
  rw [hinner, hinner']
  refine foldl_op_congr _ fun x => ?_
  rw [List.mem_map, List.mem_map]
  exact exists_congr fun op => and_congr_left fun _ => hsame op

/-- What is read under a key is what the admitted updates make of it, and nothing is read under a
key that none of them is about. -/
theorem signed_membrane (calls : List (Call K V)) (k : K) :
    ((replica calls).get k = none ↔ ∀ op, Admits calls op → op.payload.key ≠ k) ∧
      ∀ value, (replica calls).get k = some value → ∃ ts, Newest (Admits calls) k (ts, value) := by
  obtain ⟨ops, hinner, hops⟩ := inner_replica calls
  have hread := newest_joined ops k
  have hget : (replica calls).get k = ((replica calls).inner.getWithTs k).map Prod.snd := rfl
  rw [← hinner] at hread
  rw [hget]
  cases hentry : (replica calls).inner.getWithTs k with
  | none =>
    rw [hentry] at hread
    refine ⟨⟨fun _ op hop => hread op ((hops op).mpr hop), fun _ => rfl⟩, fun value hvalue => ?_⟩
    cases hvalue
  | some e =>
    rw [hentry] at hread
    have hnewest : Newest (Admits calls) k e := by
      rw [← funext fun op => propext (hops op)]
      exact hread
    obtain ⟨v, vs, -, hvs⟩ := hnewest.joined
    obtain ⟨op, hop, hkey, -⟩ := (hvs v).mp List.mem_cons_self
    refine ⟨iff_of_false (fun h => by cases h) fun h => h op hop hkey, fun value hvalue => ?_⟩
    cases hvalue
    exact ⟨e.1, hnewest⟩

end Accepts

/-! ## Two replicas -/

namespace Demo

/-- A scheme whose signatures repeat the name of the author. -/
instance instSigningDemo : Signing (LwwPut String String) where
  toVec p := .ok (p.key ++ p.value).toUTF8.toList
  verify n _ sig := sig.toList == n.toList ++ n.toList

def ada : NodeId := .replicate 32 1

def put (key : String) (ts : UInt64) (value : String) : SignedOp (LwwPut String String) :=
  ⟨ada, ⟨key, ts, value⟩, .replicate 64 1⟩

/-- One replica is told of the author after the first update has come, and gets it again later. -/
theorem signed_converges_late :
    (replica [.apply (put "k" 2 "b"), .authorize ada, .apply (put "k" 1 "a"),
      .apply (put "k" 2 "b")]).inner =
      (replica [.authorize ada, .apply (put "k" 2 "b"), .apply (put "k" 1 "a")]).inner := by
  refine signed_converges fun op => ?_
  show Admits (((([] ++ [.apply (put "k" 2 "b")]) ++ [.authorize ada]) ++
      [.apply (put "k" 1 "a")]) ++ [.apply (put "k" 2 "b")]) op ↔
    Admits ((([] ++ [.authorize ada]) ++ [.apply (put "k" 2 "b")]) ++ [.apply (put "k" 1 "a")]) op
  iterate 7 rw [admits_concat]
  simp only [List.nil_append, List.cons_append, List.mem_cons, List.not_mem_nil, or_false,
    and_false, reduceCtorEq, false_or, Call.authorize.injEq, Call.apply.injEq]
  tauto

end Demo

end P2P333.SignedState333
