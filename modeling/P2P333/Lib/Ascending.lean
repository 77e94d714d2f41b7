import Mathlib

/-!
# Entry lists in ascending order

Lists of keys with values, strictly ascending by key: a lookup by binary search, and the merge of
two lists in one pass, in which the values of a key that both have are joined.

Results:
1. `find_eq_some`: a search finds exactly the entries.
2. `Ascending.ext`: a list is determined by what is found in it.
3. `find_mergeWith`: the merge joins what is found in the two lists.
4. `mergeWith_comm`, `mergeWith_assoc`, `mergeWith_self`: the merge has the laws of the join.
-/

namespace P2P333.Lib.Entries

variable {K V : Type*} [LinearOrder K]

def Ascending (l : List (K × V)) : Prop := l.Pairwise (·.1 < ·.1)

/-! ## Search -/

/-- The last index of the window whose key is not above `k`, or its first one. -/
def search (l : List (K × V)) (k : K) (base size : Nat) : Nat :=
  if 1 < size then
    let half := size / 2
    let mid := base + half
    search l k (if l[mid]?.any fun e => k < e.1 then base else mid) (size - half)
  else base
termination_by size

/-- Lookup by binary search. -/
def find (l : List (K × V)) (k : K) : Option V :=
  (l[search l k 0 l.length]?).bind fun e => if e.1 = k then some e.2 else none

section Search

variable {l : List (K × V)} {k : K} {v : V} {i base size : Nat}

theorem Ascending.key_lt (h : Ascending l) {j : Nat} {e e' : K × V} (hi : l[i]? = some e)
    (hj : l[j]? = some e')
    (hij : i < j) : e.1 < e'.1 := by
  obtain ⟨hilt, rfl⟩ := List.getElem?_eq_some_iff.mp hi
  obtain ⟨hjlt, rfl⟩ := List.getElem?_eq_some_iff.mp hj
  exact List.pairwise_iff_getElem.mp h i j hilt hjlt hij

/-- The window never loses the index of the key. -/
theorem search_eq (h : Ascending l) (hi : l[i]? = some (k, v)) (hbase : base ≤ i)
    (hsize : i < base + size)
    (hroom : base + size ≤ l.length) : search l k base size = i := by
  induction size using Nat.strong_induction_on generalizing base with
  | _ size ih =>
    rw [search]
    split_ifs with hone
    · set mid := base + size / 2 with hmid
      have hinside : mid < l.length := by omega
      obtain ⟨e, he⟩ : ∃ e, l[mid]? = some e := ⟨l[mid], List.getElem?_eq_getElem hinside⟩
      dsimp only
      rw [← hmid, he, Option.any_some]
      have hhalf : size - size / 2 < size := by omega
      by_cases habove : k < e.1
      · rw [decide_eq_true habove, if_pos rfl]
        have hleft : i < mid := by
          by_contra hright
          rcases Nat.lt_or_eq_of_le (Nat.le_of_not_lt hright) with hlt | rfl
          · exact lt_asymm habove (h.key_lt he hi hlt)
          · rw [hi] at he
            cases he
            exact lt_irrefl _ habove
        exact ih _ hhalf hbase (by omega) (by omega)
      · rw [decide_eq_false habove, if_neg Bool.false_ne_true]
        have hright : mid ≤ i := by
          by_contra hleft
          exact habove (h.key_lt hi he (Nat.lt_of_not_le hleft))
        exact ih _ hhalf hright (by omega) (by omega)
    · omega

/-- A search finds exactly the entries. -/
theorem find_eq_some (h : Ascending l) : find l k = some v ↔ (k, v) ∈ l := by
  constructor
  · intro hfind
    obtain ⟨⟨k', v'⟩, he, hv⟩ := Option.bind_eq_some_iff.mp hfind
    dsimp only at hv
    split_ifs at hv with hk
    cases hv
    cases hk
    exact List.mem_of_getElem? he
  · intro hmem
    obtain ⟨i, hi⟩ := List.mem_iff_getElem?.mp hmem
    have hlt : i < l.length := (List.getElem?_eq_some_iff.mp hi).1
    rw [find, search_eq h hi (Nat.zero_le i) (by omega) (by omega), hi,
      Option.bind_some, if_pos rfl]

theorem find_eq_none (h : Ascending l) : find l k = none ↔ ∀ v, (k, v) ∉ l := by
  rw [Option.eq_none_iff_forall_ne_some]
  exact forall_congr' fun v => not_congr (find_eq_some h)

/-- A list is determined by what is found in it. -/
theorem Ascending.ext {l' : List (K × V)} (h : Ascending l) (h' : Ascending l')
    (heq : ∀ k, find l k = find l' k) :
    l = l' := by
  have hnodup : ∀ {l : List (K × V)}, Ascending l → l.Nodup :=
    fun h => h.imp fun hlt heq => hlt.ne (congrArg Prod.fst heq)
  have hperm : l.Perm l' := (List.perm_ext_iff_of_nodup (hnodup h) (hnodup h')).mpr fun ⟨k, v⟩ => by
    rw [← find_eq_some h, ← find_eq_some h', heq k]
  exact hperm.eq_of_pairwise (fun _ _ _ _ hlt hlt' => absurd hlt (lt_asymm hlt')) h h'

end Search

/-! ## Merge -/

/-- Both lists in one pass, from the smaller key on. -/
def mergeWith (join : V → V → V) : List (K × V) → List (K × V) → List (K × V)
  | [], b => b
  | a, [] => a
  | (k, v) :: a, (k', v') :: b =>
    match compare k k' with
    | .lt => (k, v) :: mergeWith join a ((k', v') :: b)
    | .gt => (k', v') :: mergeWith join ((k, v) :: a) b
    | .eq => (k, join v v') :: mergeWith join a b
termination_by a b => a.length + b.length

section Merge

variable {join : V → V → V} {a b c : List (K × V)} {k : K}

@[simp] theorem mergeWith_nil_left (join : V → V → V) (b : List (K × V)) : mergeWith join
    [] b = b := by
  rw [mergeWith]

@[simp] theorem mergeWith_nil_right (join : V → V → V) (a : List (K × V)) :
    mergeWith join a [] = a := by
  cases a <;> rw [mergeWith]
  exact nofun

/-- A key of the merge is a key of one of the lists. -/
theorem key_mem_of_mergeWith {e : K × V} (he : e ∈ mergeWith join a b) :
    (∃ e' ∈ a, e'.1 = e.1) ∨ ∃ e' ∈ b, e'.1 = e.1 := by
  fun_induction mergeWith join a b with
  | case1 b => exact .inr ⟨e, he, rfl⟩
  | case2 a => exact .inl ⟨e, he, rfl⟩
  | case3 k v a k' v' b hlt ih =>
    rcases List.mem_cons.mp he with rfl | he
    · exact .inl ⟨_, List.mem_cons_self, rfl⟩
    · exact (ih he).imp_left fun ⟨e', he', hk⟩ => ⟨e', List.mem_cons_of_mem _ he', hk⟩
  | case4 k v a k' v' b hgt ih =>
    rcases List.mem_cons.mp he with rfl | he
    · exact .inr ⟨_, List.mem_cons_self, rfl⟩
    · exact (ih he).imp_right fun ⟨e', he', hk⟩ => ⟨e', List.mem_cons_of_mem _ he', hk⟩
  | case5 k v a k' v' b heq ih =>
    rcases List.mem_cons.mp he with rfl | he
    · exact .inl ⟨_, List.mem_cons_self, rfl⟩
    · exact (ih he).imp (fun ⟨e', he', hk⟩ => ⟨e', List.mem_cons_of_mem _ he', hk⟩)
        fun ⟨e', he', hk⟩ => ⟨e', List.mem_cons_of_mem _ he', hk⟩

theorem Ascending.mergeWith (ha : Ascending a) (hb : Ascending b) : Ascending
    (mergeWith join a b) := by
  fun_induction Entries.mergeWith join a b with
  | case1 b => exact hb
  | case2 a => exact ha
  | case3 k v a k' v' b hlt ih =>
    have hk : k < k' := compare_lt_iff_lt.mp hlt
    obtain ⟨hhead, htail⟩ := List.pairwise_cons.mp ha
    refine List.pairwise_cons.mpr ⟨fun e he => ?_, ih htail hb⟩
    rcases key_mem_of_mergeWith he with ⟨e', he', heq⟩ | ⟨e', he', heq⟩
    · exact heq ▸ hhead e' he'
    · rcases List.mem_cons.mp he' with rfl | he'
      · exact heq ▸ hk
      · exact heq ▸ hk.trans ((List.pairwise_cons.mp hb).1 e' he')
  | case4 k v a k' v' b hgt ih =>
    have hk : k' < k := compare_gt_iff_gt.mp hgt
    obtain ⟨hhead, htail⟩ := List.pairwise_cons.mp hb
    refine List.pairwise_cons.mpr ⟨fun e he => ?_, ih ha htail⟩
    rcases key_mem_of_mergeWith he with ⟨e', he', heq⟩ | ⟨e', he', heq⟩
    · rcases List.mem_cons.mp he' with rfl | he'
      · exact heq ▸ hk
      · exact heq ▸ hk.trans ((List.pairwise_cons.mp ha).1 e' he')
    · exact heq ▸ hhead e' he'
  | case5 k v a k' v' b heq ih =>
    cases compare_eq_iff_eq.mp heq
    obtain ⟨hheada, htaila⟩ := List.pairwise_cons.mp ha
    obtain ⟨hheadb, htailb⟩ := List.pairwise_cons.mp hb
    refine List.pairwise_cons.mpr ⟨fun e he => ?_, ih htaila htailb⟩
    rcases key_mem_of_mergeWith he with ⟨e', he', hk⟩ | ⟨e', he', hk⟩
    · exact hk ▸ hheada e' he'
    · exact hk ▸ hheadb e' he'

theorem find_nil (k : K) : find ([] : List (K × V)) k = none := rfl

/-- The head is found under its key. -/
theorem find_cons {k' : K} {v : V} (h : Ascending ((k', v) :: a)) (k : K) :
    find ((k', v) :: a) k = if k = k' then some v else find a k := by
  obtain ⟨hhead, htail⟩ := List.pairwise_cons.mp h
  split_ifs with hk
  · exact (find_eq_some h).mpr (hk ▸ List.mem_cons_self)
  · refine Option.ext fun w => ?_
    rw [find_eq_some h, find_eq_some htail, List.mem_cons]
    exact or_iff_right fun heq => hk (congrArg Prod.fst heq)

theorem find_of_lt {k' : K} {v : V} (h : Ascending ((k', v) :: a)) (hk : k < k') :
    find ((k', v) :: a) k = none := by
  refine (find_eq_none h).mpr fun w hmem => ?_
  rcases List.mem_cons.mp hmem with heq | hmem
  · cases heq
    exact lt_irrefl _ hk
  · exact lt_asymm hk ((List.pairwise_cons.mp h).1 _ hmem)

/-- The merge joins what is found in the two lists. -/
theorem find_mergeWith (ha : Ascending a) (hb : Ascending b) (k : K) :
    find (mergeWith join a b) k = Option.merge join (find a k) (find b k) := by
  have hmerge : Ascending (Entries.mergeWith join a b) := ha.mergeWith hb
  fun_induction Entries.mergeWith join a b with
  | case1 b => rw [find_nil, Option.merge_none_left]
  | case2 a => rw [find_nil, Option.merge_none_right]
  | case3 k₁ v a k₂ v' b hlt ih =>
    have hk : k₁ < k₂ := compare_lt_iff_lt.mp hlt
    rw [find_cons hmerge, find_cons ha, ih ha.of_cons hb hmerge.of_cons]
    split_ifs with heq
    · rw [heq, find_of_lt hb hk, Option.merge_none_right]
    · rfl
  | case4 k₁ v a k₂ v' b hgt ih =>
    have hk : k₂ < k₁ := compare_gt_iff_gt.mp hgt
    rw [find_cons hmerge, find_cons hb, ih ha hb.of_cons hmerge.of_cons]
    split_ifs with heq
    · rw [heq, find_of_lt ha hk, Option.merge_none_left]
    · rfl
  | case5 k₁ v a k₂ v' b heq ih =>
    cases compare_eq_iff_eq.mp heq
    rw [find_cons hmerge, find_cons ha, find_cons hb, ih ha.of_cons hb.of_cons hmerge.of_cons]
    split_ifs <;> rfl

/-! ## Laws -/

theorem mergeWith_comm [Std.Commutative join] (ha : Ascending a) (hb : Ascending b) :
    mergeWith join a b = mergeWith join b a := by
  refine (ha.mergeWith hb).ext (hb.mergeWith ha) fun k => ?_
  rw [find_mergeWith ha hb, find_mergeWith hb ha, (Option.commutative_merge join).comm]

theorem mergeWith_assoc [Std.Associative join] (ha : Ascending a) (hb : Ascending b)
    (hc : Ascending c) :
    mergeWith join (mergeWith join a b) c = mergeWith join a (mergeWith join b c) := by
  refine ((ha.mergeWith hb).mergeWith hc).ext (ha.mergeWith (hb.mergeWith hc)) fun k => ?_
  rw [find_mergeWith (ha.mergeWith hb) hc, find_mergeWith ha hb,
    find_mergeWith ha (hb.mergeWith hc),
    find_mergeWith hb hc, (Option.associative_merge join).assoc]

theorem mergeWith_self [Std.IdempotentOp join] (ha : Ascending a) : mergeWith join a a = a := by
  refine (ha.mergeWith ha).ext ha fun k => ?_
  rw [find_mergeWith ha ha, (Option.idempotentOp_merge join).idempotent]

end Merge

end P2P333.Lib.Entries
