import P2P333.Platform333.Crdt.OrSet

/-!
# Collecting tombstones

`gc_epoch` of `333-platform/src/crdt/or_set.rs`. Two runs of the same calls stand side by side: in
one of them the calls of `gc_epoch` collect, in the other one they are left out. A call merges the
delta that came from the same call, or the set that was sent by the same call, in both runs.

A collection forgets which tags were removed. Nobody needs to be told that they were, since all
know. But a delta that adds such a tag may still arrive once more, and so may a set that was sent
before the remove: the tag is taken for a new one.

Results:
1. `Alike.mergeDelta`, `Alike.mergeFull`: what comes from the same call has the same effect, as long
   as no forgotten tag is in it.
2. `collection_invisible`: in runs without such arrivals, a collection changes nothing that is seen.
-/

namespace P2P333.Platform333.Crdt

open Lib Function

namespace ORSet

variable {T : Type}

/-- Nothing is collected before all peers have acknowledged. -/
def gcEpoch (s : ORSet T) (peersAcked : Finset UInt32) (totalPeers : Nat) : ORSet T :=
  if peersAcked.card ≥ totalPeers then { s with tombstones := ∅ } else s

end ORSet

/-! ## Two runs -/

/-- The run that collects, and the one that does not. -/
structure Twin (T : Type) where
  collecting : SetWorld T
  keeping : SetWorld T

/-- An action in both worlds, or a collection in one of them. -/
inductive GcAction (T : Type) where
  /-- One call, as it is made in either run. -/
  | both (a a' : SetAction T)
  | gcEpoch (v : UInt32) (peersAcked : Finset UInt32) (totalPeers : Nat)

/-- The replica that an action is of. -/
def SetAction.actor {T : Type} : SetAction T → UInt32
  | .add v _ | .remove v _ _ | .share v | .mergeDelta v _ | .mergeFull v _ _ _ => v

namespace Twin

variable {T : Type} [DecidableEq T]

def start : Twin T := ⟨.start, .start⟩

/-- The actions are the same call. Each run iterates its own hash maps, and merges what its own call
has returned. -/
def SameCall (w : Twin T) : SetAction T → SetAction T → Prop
  | .add v value, .add v' value' => v = v' ∧ value = value'
  | .remove v value _, .remove v' value' _ => v = v' ∧ value = value'
  | .share v, .share v' => v = v'
  | .mergeDelta v delta, .mergeDelta v' delta' => v = v' ∧ ∃ (k : Nat) (m m' : Made T),
    w.collecting.issued[k]? = some m ∧ w.keeping.issued[k]? = some m' ∧ m.delta = delta ∧
      m'.delta = delta'
  | .mergeFull v sent _ _, .mergeFull v' sent' _ _ => v = v' ∧ ∃ k : Nat,
    w.collecting.shared[k]? = some sent ∧ w.keeping.shared[k]? = some sent'
  | _, _ => False

def step (checks : Bool) (w : Twin T) : GcAction T → Option (Twin T)
  | .both a a' => (SetWorld.step checks w.collecting a).bind fun collecting =>
    (SetWorld.step checks w.keeping a').map fun keeping => ⟨collecting, keeping⟩
  | .gcEpoch v peersAcked totalPeers => some { w with
    collecting := w.collecting.put v
      ((w.collecting.site v).replica.gcEpoch peersAcked totalPeers) [] }

/-- Every replica has merged every delta. -/
def Merged (members : Set UInt32) (w : SetWorld T) : Prop :=
  ∀ v ∈ members, ∀ m ∈ w.issued, m.delta ∈ (w.site v).learned

/-- All peers are reported to have acknowledged only when every replica has merged every delta. -/
def Allowed (members : Set UInt32) (checks : Bool) (w : Twin T) : GcAction T → Prop
  | .both a a' => a.actor ∈ members ∧ w.SameCall a a' ∧ w.collecting.Allowed checks a ∧
    w.keeping.Allowed checks a'
  | .gcEpoch v peersAcked totalPeers => v ∈ members ∧
    (peersAcked.card ≥ totalPeers → Merged members w.collecting)

/-- A tag that arrives is not one that the replica has learned to be removed and whose tombstone it
has collected. -/
def Remembers (w : Twin T) : GcAction T → Prop
  | .both (.mergeDelta v delta) _ => ∀ a ∈ delta.adds,
    ORSet.RemovedBy (w.collecting.site v).learned a.2 →
      a.2 ∈ (w.collecting.site v).replica.tombstones
  | .both (.mergeFull v _ order _) _ => ∀ e ∈ order,
    ORSet.RemovedBy (w.collecting.site v).learned e.2 →
      e.2 ∈ (w.collecting.site v).replica.tombstones
  | _ => True

/-! ## What stays the same -/

/-- The deltas add the same tags and remove the same tags. -/
structure SameDelta (d d' : ORSetDelta T) : Prop where
  adds : d.adds = d'.adds
  removes : ∀ t, t ∈ d.removes ↔ t ∈ d'.removes

/-- The replicas show the same. Only tombstones of the tags in `F` have been collected. -/
structure Alike (F : Tag → Prop) (s s' : Site T) : Prop where
  nodeId : s.replica.nodeId = s'.replica.nodeId
  seq : s.replica.seq = s'.replica.seq
  has : ∀ x t, s.replica.Has x t ↔ s'.replica.Has x t
  stones : ∀ t ∈ s.replica.tombstones, t ∈ s'.replica.tombstones
  forgotten : ∀ t ∈ s'.replica.tombstones, t ∈ s.replica.tombstones ∨ F t
  learned : List.Forall₂ SameDelta s.learned s'.learned

variable {F F' : Tag → Prop} {s s' o o' : Site T} {d d' : ORSetDelta T} {checks : Bool}

section

omit [DecidableEq T]

theorem alike_refl (s : Site T) : Alike F s s where
  nodeId := rfl
  seq := rfl
  has _ _ := Iff.rfl
  stones _ h := h
  forgotten _ h := .inl h
  learned := List.forall₂_same.mpr fun _ _ => ⟨rfl, fun _ => Iff.rfl⟩

theorem Alike.mono (h : Alike F s s') (hF : ∀ t, F t → F' t) : Alike F' s s' :=
  { h with forgotten := fun t ht => (h.forgotten t ht).imp_right (hF t) }

theorem removedBy_congr {L L' : List (ORSetDelta T)} (h : List.Forall₂ SameDelta L L') (t : Tag) :
    ORSet.RemovedBy L t ↔ ORSet.RemovedBy L' t := by
  induction h with
  | nil => exact Iff.rfl
  | cons hd _ ih => rw [ORSet.removedBy_cons, ORSet.removedBy_cons, hd.removes, ih]

end

/-- The same number is given to the same value. -/
theorem Alike.add (h : Alike F s s') {value : T} {r r' : ORSetDelta T × ORSet T}
    (hr : s.replica.add checks value = some r) (hr' : s'.replica.add checks value = some r') :
    SameDelta r.1 r'.1 ∧ Alike F ⟨r.2, r.1 :: s.learned⟩ ⟨r'.2, r'.1 :: s'.learned⟩ := by
  unfold ORSet.add at hr hr'
  split at hr
  · cases hr
  split at hr'
  · cases hr'
  cases hr
  cases hr'
  have hdelta : SameDelta
      ⟨[(value, (⟨s.replica.nodeId, s.replica.seq + 1⟩ : Tag))], []⟩
      ⟨[(value, (⟨s'.replica.nodeId, s'.replica.seq + 1⟩ : Tag))], []⟩ :=
    ⟨by rw [h.nodeId, h.seq], fun _ => Iff.rfl⟩
  refine ⟨hdelta, { h with seq := ?_, has := fun x t => ?_, learned := .cons hdelta h.learned }⟩
  · dsimp only
    rw [h.seq]
  · refine ORSet.exists_enter.trans (Iff.trans ?_ ORSet.exists_enter.symm)
    rw [h.nodeId, h.seq]
    exact or_congr_right (h.has x t)

theorem Alike.remove (h : Alike F s s') {value : T} {order order' : List Tag}
    (hlists : s.replica.ListsTags value order) (hlists' : s'.replica.ListsTags value order') :
    SameDelta (s.replica.remove value order).1 (s'.replica.remove value order').1 ∧
      Alike F ⟨(s.replica.remove value order).2, (s.replica.remove value order).1 :: s.learned⟩
        ⟨(s'.replica.remove value order').2,
          (s'.replica.remove value order').1 :: s'.learned⟩ := by
  obtain ⟨hhas, hstones, hadds, hremoves⟩ := ORSet.remove_spec hlists
  obtain ⟨hhas', hstones', hadds', hremoves'⟩ := ORSet.remove_spec hlists'
  have hkeep : ∀ (r : ORSet T) o, (r.remove value o).2.nodeId = r.nodeId ∧
      (r.remove value o).2.seq = r.seq := fun r o => r.keeps_remove value o
  have hdelta : SameDelta (s.replica.remove value order).1 (s'.replica.remove value order').1 :=
    ⟨hadds.trans hadds'.symm, fun t => by rw [hremoves, hremoves', h.has]⟩
  refine ⟨hdelta, ?_, ?_, fun x t => ?_, fun t ht => ?_, fun t ht => ?_, .cons hdelta h.learned⟩
  · exact (hkeep _ _).1.trans (h.nodeId.trans (hkeep _ _).1.symm)
  · exact (hkeep _ _).2.trans (h.seq.trans (hkeep _ _).2.symm)
  · rw [hhas, hhas', h.has]
  · rw [hstones']
    exact ((hstones t).mp ht).imp (h.stones t) (h.has value t).mp
  · rw [hstones]
    rcases (hstones' t).mp ht with hold | hnew
    · exact (h.forgotten t hold).imp_left .inl
    · exact .inl (.inr ((h.has value t).mpr hnew))

theorem Alike.mergeDelta (h : Alike F s s') (hd : SameDelta d d')
    (hfresh : ∀ a ∈ d.adds, a.2 ∈ s'.replica.tombstones → a.2 ∈ s.replica.tombstones) :
    Alike F ⟨s.replica.mergeDelta d, d :: s.learned⟩
      ⟨s'.replica.mergeDelta d', d' :: s'.learned⟩ := by
  obtain ⟨hhas, hstones⟩ := s.replica.mergeDelta_spec d
  obtain ⟨hhas', hstones'⟩ := s'.replica.mergeDelta_spec d'
  obtain ⟨hnode, hseq⟩ := ORSet.keeps_mergeDelta s.replica d
  obtain ⟨hnode', hseq'⟩ := ORSet.keeps_mergeDelta s'.replica d'
  refine ⟨hnode.trans (h.nodeId.trans hnode'.symm), hseq.trans (h.seq.trans hseq'.symm),
    fun x t => ?_, fun t ht => ?_, fun t ht => ?_, .cons hd h.learned⟩
  · rw [hhas, hhas', h.has, ← hd.adds, hd.removes]
    refine or_congr_right (and_congr_right fun hadded => and_congr_left fun _ => not_congr ?_)
    exact ⟨h.stones t, hfresh _ hadded⟩
  · exact (hstones' t).mpr (((hstones t).mp ht).imp (h.stones t) (hd.removes t).mp)
  · rcases (hstones' t).mp ht with hold | hnew
    · exact (h.forgotten t hold).imp_left fun hin => (hstones t).mpr (.inl hin)
    · exact .inl ((hstones t).mpr (.inr ((hd.removes t).mpr hnew)))

/-- The tags in `F` are known to be removed where the set arrives. -/
theorem Alike.mergeFull (h : Alike F s s') (ho : Alike F o o') {order order' : List (T × Tag)}
    {stones stones' : List Tag} (hlists : o.replica.Lists order stones)
    (hlists' : o'.replica.Lists order' stones')
    (hfresh : ∀ x t, o.replica.Has x t → t ∈ s'.replica.tombstones → t ∈ s.replica.tombstones)
    (hdead : ∀ x t, s'.replica.Has x t → ¬ F t)
    (hlive : ∀ x t, o'.replica.Has x t → t ∉ o'.replica.tombstones) :
    Alike F ⟨s.replica.mergeFull order stones, o.learned ++ s.learned⟩
      ⟨s'.replica.mergeFull order' stones', o'.learned ++ s'.learned⟩ := by
  obtain ⟨hhas, hstones⟩ := ORSet.mergeFull_spec (s := s.replica) hlists
  obtain ⟨hhas', hstones'⟩ := ORSet.mergeFull_spec (s := s'.replica) hlists'
  obtain ⟨hnode, hseq⟩ := ORSet.keeps_mergeFull s.replica order stones
  obtain ⟨hnode', hseq'⟩ := ORSet.keeps_mergeFull s'.replica order' stones'
  refine ⟨hnode.trans (h.nodeId.trans hnode'.symm), hseq.trans (h.seq.trans hseq'.symm),
    fun x t => ?_, fun t ht => ?_, fun t ht => ?_, List.rel_append ho.learned h.learned⟩
  · rw [hhas, hhas', h.has, ho.has]
    constructor
    · rintro ⟨hold | ⟨hsent, hout⟩, hstruck⟩
      · refine ⟨.inl hold, fun hin => ?_⟩
        exact (ho.forgotten t hin).elim hstruck (hdead x t hold)
      · exact ⟨.inr ⟨hsent, fun hin => hout (hfresh x t ((ho.has x t).mpr hsent) hin)⟩,
          hlive x t hsent⟩
    · rintro ⟨hold | ⟨hsent, hout⟩, hstruck⟩
      · exact ⟨.inl hold, fun hin => hstruck (ho.stones t hin)⟩
      · exact ⟨.inr ⟨hsent, fun hin => hout (h.stones t hin)⟩, fun hin => hstruck (ho.stones t hin)⟩
  · exact (hstones' t).mpr (((hstones t).mp ht).imp (h.stones t) (ho.stones t))
  · rcases (hstones' t).mp ht with hold | hnew
    · exact (h.forgotten t hold).imp_left fun hin => (hstones t).mpr (.inl hin)
    · exact (ho.forgotten t hnew).imp_left fun hin => (hstones t).mpr (.inr hin)

omit [DecidableEq T] in
/-- What a replica collects is known to be removed. -/
theorem Alike.gcEpoch (h : Alike F s s') (peersAcked : Finset UInt32) (totalPeers : Nat)
    (hknown : peersAcked.card ≥ totalPeers → ∀ t ∈ s'.replica.tombstones, F t) :
    Alike F ⟨s.replica.gcEpoch peersAcked totalPeers, s.learned⟩ s' := by
  unfold ORSet.gcEpoch
  split
  · next hall =>
    exact { h with
      stones := fun t ht => absurd ht (Finset.notMem_empty t)
      forgotten := fun t ht => .inr (hknown hall t ht) }
  · exact h

/-! ## Runs -/

/-- All replicas know that the tag is removed. -/
def KnownDead (members : Set UInt32) (w : SetWorld T) (t : Tag) : Prop :=
  ∀ v ∈ members, t ∈ (w.site v).replica.tombstones

/-- The replicas, the sets on their way and the deltas are alike in both runs. -/
structure Inv (members : Set UInt32) (w : Twin T) : Prop where
  keeping : SetWorld.Inv w.keeping
  sites : ∀ v, Alike (KnownDead members w.keeping) (w.collecting.site v) (w.keeping.site v)
  shared : List.Forall₂ (Alike (KnownDead members w.keeping)) w.collecting.shared w.keeping.shared
  issued : List.Forall₂ (fun m m' => SameDelta m.delta m'.delta) w.collecting.issued
    w.keeping.issued

variable {members : Set UInt32} {w w' : Twin T}

omit [DecidableEq T] in
theorem inv_start (members : Set UInt32) : Inv members (start : Twin T) where
  keeping := SetWorld.inv_start
  sites _ := alike_refl _
  shared := .nil
  issued := .nil

/-- No tombstone goes away without a collection. -/
theorem tombstones_step {w w' : SetWorld T} {a : SetAction T} (hok : w.Allowed checks a)
    (hstep : SetWorld.step checks w a = some w') (v : UInt32) :
    (w.site v).replica.tombstones ⊆ (w'.site v).replica.tombstones := by
  have hput : ∀ (u : UInt32) (s : Site T),
      (w.site u).replica.tombstones ⊆ s.replica.tombstones →
        (w.site v).replica.tombstones ⊆ (update w.site u s v).replica.tombstones := by
    intro u s hsub
    by_cases hv : v = u
    · subst hv
      rwa [update_self]
    · rw [update_of_ne hv]
  cases a with
  | add u value =>
    obtain ⟨r, hadd, rfl⟩ := Option.map_eq_some_iff.mp hstep
    refine hput u _ ?_
    unfold ORSet.add at hadd
    split at hadd
    · cases hadd
    · cases hadd
      exact Finset.Subset.refl _
  | remove u value order =>
    cases hstep
    exact hput u _ fun t ht => ((ORSet.remove_spec hok).2.1 t).mpr (.inl ht)
  | share u =>
    cases hstep
    exact Finset.Subset.refl _
  | mergeDelta u delta =>
    cases hstep
    exact hput u _ fun t ht => ((ORSet.mergeDelta_spec _ delta).2 t).mpr (.inl ht)
  | mergeFull u sent order stones =>
    cases hstep
    exact hput u _ fun t ht => ((ORSet.mergeFull_spec hok.2).2 t).mpr (.inl ht)

section

omit [DecidableEq T]

theorem alike_update {f g : UInt32 → Site T} (h : ∀ v, Alike F (f v) (g v)) {v : UInt32}
    (hsite : Alike F s s') (u : UInt32) :
    Alike F (update f v s u) (update g v s' u) := by
  by_cases hu : u = v
  · subst hu
    rwa [update_self, update_self]
  · rw [update_of_ne hu, update_of_ne hu]
    exact h u

/-- What was learned to be removed, as the other run knows it. -/
theorem Inv.removedBy_iff (h : Inv members w) (v : UInt32) (t : Tag) :
    ORSet.RemovedBy (w.collecting.site v).learned t ↔
      t ∈ (w.keeping.site v).replica.tombstones :=
  (removedBy_congr (h.sites v).learned t).trans ((h.keeping.sites v).shows.tombstones t).symm

/-- Once everybody has merged everything, all know what is removed. -/
theorem Inv.knownDead (h : Inv members w) (hmerged : Merged members w.collecting) {v : UInt32}
    {t : Tag} (ht : t ∈ (w.keeping.site v).replica.tombstones) :
    KnownDead members w.keeping t := by
  obtain ⟨d, hd, htag⟩ := ((h.keeping.sites v).shows.tombstones t).mp ht
  obtain ⟨m', hm', rfl⟩ := (h.keeping.sites v).issued d hd
  obtain ⟨k, hk⟩ := List.getElem?_of_mem hm'
  obtain ⟨m, hm, hsame⟩ : ∃ m ∈ w.collecting.issued, SameDelta m.delta m'.delta := by
    have hlt : k < w.collecting.issued.length := by
      rw [h.issued.length_eq]
      exact (List.getElem?_eq_some_iff.mp hk).1
    refine ⟨w.collecting.issued[k], List.getElem_mem hlt, ?_⟩
    rw [← (List.getElem?_eq_some_iff.mp hk).2]
    exact h.issued.get hlt _
  intro u hu
  rw [← h.removedBy_iff]
  exact ⟨m.delta, hmerged u hu m hm, (hsame.removes t).mpr htag⟩

end

/-- What stands at the same place of two lists that belong together. -/
theorem forall₂_getElem? {α β : Type} {R : α → β → Prop} {l : List α} {l' : List β}
    (h : List.Forall₂ R l l') {k : Nat} {a : α} {b : β} (ha : l[k]? = some a)
    (hb : l'[k]? = some b) : R a b := by
  obtain ⟨hlt, rfl⟩ := List.getElem?_eq_some_iff.mp ha
  obtain ⟨hlt', rfl⟩ := List.getElem?_eq_some_iff.mp hb
  exact h.get hlt hlt'

/-- One call in both runs. -/
theorem Inv.both (h : Inv members w) {a a' : SetAction T} {c k : SetWorld T}
    (hok : w.Allowed members checks (.both a a')) (hremembers : w.Remembers (.both a a'))
    (hc : SetWorld.step checks w.collecting a = some c)
    (hk : SetWorld.step checks w.keeping a' = some k) : Inv members ⟨c, k⟩ := by
  obtain ⟨hactor, hsame, hallowed, hallowed'⟩ := hok
  have hkeeping := h.keeping.step hallowed' hk
  have hgrows : ∀ t, KnownDead members w.keeping t → KnownDead members k t :=
    fun t ht v hv => tombstones_step hallowed' hk v (ht v hv)
  have hsites : ∀ v, Alike (KnownDead members k) (w.collecting.site v) (w.keeping.site v) :=
    fun v => (h.sites v).mono hgrows
  have hshared : List.Forall₂ (Alike (KnownDead members k)) w.collecting.shared w.keeping.shared :=
    h.shared.imp fun _ _ halike => halike.mono hgrows
  cases a with
  | add v value =>
    cases a' with
    | add v' value' =>
      obtain ⟨rfl, rfl⟩ := hsame
      obtain ⟨r, hadd, rfl⟩ := Option.map_eq_some_iff.mp hc
      obtain ⟨r', hadd', rfl⟩ := Option.map_eq_some_iff.mp hk
      obtain ⟨hdelta, halike⟩ := (hsites v).add hadd hadd'
      exact ⟨hkeeping, alike_update hsites halike, hshared, .cons hdelta h.issued⟩
    | _ => exact False.elim hsame
  | remove v value order =>
    cases a' with
    | remove v' value' order' =>
      obtain ⟨rfl, rfl⟩ := hsame
      cases hc
      cases hk
      obtain ⟨hdelta, halike⟩ := (hsites v).remove hallowed hallowed'
      exact ⟨hkeeping, alike_update hsites halike, hshared, .cons hdelta h.issued⟩
    | _ => exact False.elim hsame
  | share v =>
    cases a' with
    | share v' =>
      obtain rfl := hsame
      cases hc
      cases hk
      exact ⟨hkeeping, hsites, .cons (hsites v) hshared, h.issued⟩
    | _ => exact False.elim hsame
  | mergeDelta v delta =>
    cases a' with
    | mergeDelta v' delta' =>
      obtain ⟨rfl, i, m, m', hm, hm', rfl, rfl⟩ := hsame
      cases hc
      cases hk
      have hdelta : SameDelta m.delta m'.delta := forall₂_getElem? h.issued hm hm'
      -- No tag comes back that the collecting run has forgotten.
      refine ⟨hkeeping, alike_update hsites ((hsites v).mergeDelta hdelta fun a ha ht => ?_),
        hshared, h.issued⟩
      exact hremembers a ha ((h.removedBy_iff v a.2).mpr ht)
    | _ => exact False.elim hsame
  | mergeFull v sent order stones =>
    cases a' with
    | mergeFull v' sent' order' stones' =>
      obtain ⟨rfl, i, hm, hm'⟩ := hsame
      cases hc
      cases hk
      have hsent : Alike (KnownDead members w.keeping) sent sent' :=
        forall₂_getElem? h.shared hm hm'
      have hshows := (h.keeping.sites v).shows
      have hshows' := (h.keeping.shared sent' hallowed'.1).shows
      have hmerged := (h.sites v).mergeFull hsent hallowed.2 hallowed'.2
        (fun x t ht hin => hremembers (x, t) ((hallowed.2.entries x t).mpr ht)
          ((h.removedBy_iff v t).mpr hin))
        (fun x t ht hdead => ((hshows.has x t).mp ht).2
          ((hshows.tombstones t).mp (hdead v hactor)))
        (fun x t ht hin => ((hshows'.has x t).mp ht).2 ((hshows'.tombstones t).mp hin))
      exact ⟨hkeeping, alike_update hsites (hmerged.mono hgrows), hshared, h.issued⟩
    | _ => exact False.elim hsame

theorem Inv.step (h : Inv members w) {a : GcAction T}
    (hok : w.Allowed members checks a ∧ w.Remembers a) (hstep : step checks w a = some w') :
    Inv members w' := by
  cases a with
  | both a a' =>
    obtain ⟨c, hc, hstep⟩ := Option.bind_eq_some_iff.mp hstep
    obtain ⟨k, hk, rfl⟩ := Option.map_eq_some_iff.mp hstep
    exact h.both hok.1 hok.2 hc hk
  | gcEpoch v peersAcked totalPeers =>
    cases hstep
    have hcollected := (h.sites v).gcEpoch peersAcked totalPeers
      fun hall t ht => h.knownDead (hok.1.2 hall) ht
    refine { h with sites := fun u => ?_ }
    have halike := alike_update (v := v) h.sites hcollected u
    rwa [update_eq_self] at halike

/-- Runs in which whatever adds a tag arrives while the tombstone of the tag is still there. -/
abbrev Reachable (members : Set UInt32) (checks : Bool) : Twin T → Prop :=
  Lib.Reachable (step checks) (fun w a => w.Allowed members checks a ∧ w.Remembers a) start

/-- A collection makes no element present or absent anywhere. -/
theorem collection_invisible (h : Reachable members checks w) (v : UInt32) (value : T) :
    (w.collecting.site v).replica.contains value = (w.keeping.site v).replica.contains value := by
  have hinv : Inv members w := Lib.Reachable.invariant (inv_start members)
    (fun _ _ _ _ hinv hok hstep => hinv.step hok hstep) h
  rw [Bool.eq_iff_iff, ORSet.contains_iff, ORSet.contains_iff]
  exact exists_congr fun t => (hinv.sites v).has value t

end Twin

namespace CollectionDemo

open Twin

def tag : Tag := ⟨1, 1⟩

def added : ORSetDelta Nat := ⟨[(7, tag)], []⟩

def removed : ORSetDelta Nat := ⟨[], [tag]⟩

def twice (a : SetAction Nat) : GcAction Nat := .both a a

/-- The first replica adds 7, the second one removes it, and both have merged both deltas. Then the
second one collects, and the first delta arrives there again. -/
def actions : List (GcAction Nat) :=
  [twice (.add 1 7), twice (.mergeDelta 2 added), twice (.remove 2 7 [tag]),
    twice (.mergeDelta 1 removed), .gcEpoch 2 {1, 2} 2, twice (.mergeDelta 2 added)]

/-- The worlds after the first `n` actions. -/
def after (n : Nat) : Twin Nat :=
  (actions.take n).foldl (fun w a => (step true w a).getD w) start

theorem merged_after : Merged {1, 2} (after 4).collecting := by
  have hfirst : ∀ m ∈ (after 4).collecting.issued,
      m.delta ∈ ((after 4).collecting.site 1).learned := by decide +kernel
  have hsecond : ∀ m ∈ (after 4).collecting.issued,
      m.delta ∈ ((after 4).collecting.site 2).learned := by decide +kernel
  rintro v (rfl | rfl)
  · exact hfirst
  · exact hsecond

theorem lists_after : ((after 2).collecting.site 2).replica.ListsTags 7 [tag] ∧
    ((after 2).keeping.site 2).replica.ListsTags 7 [tag] := by
  have hentries : ((after 2).collecting.site 2).replica.entries 7 = some {tag} := by
    decide +kernel
  have hentries' : ((after 2).keeping.site 2).replica.entries 7 = some {tag} := by decide +kernel
  refine ⟨⟨List.nodup_singleton _, fun t => ?_⟩, ⟨List.nodup_singleton _, fun t => ?_⟩⟩
  · rw [ORSet.Has, hentries]
    simp
  · rw [ORSet.Has, hentries']
    simp

/-- A delta that is not forgotten. -/
theorem reachable_after : Reachable {1, 2} true (after 5) := by
  have hone : Reachable {1, 2} true (after 1) :=
    .tail (a := twice (.add 1 7)) .refl ⟨⟨.inl rfl, ⟨rfl, rfl⟩, .inl rfl, .inl rfl⟩, trivial⟩ rfl
  have htwo : Reachable {1, 2} true (after 2) := by
    refine .tail (a := twice (.mergeDelta 2 added)) hone ⟨⟨.inr rfl, ⟨rfl, 0, _, _, rfl, rfl, rfl,
      rfl⟩, ⟨_, .head _, rfl⟩, ⟨_, .head _, rfl⟩⟩, fun a ha hremoved => ?_⟩ rfl
    obtain ⟨d, hd, -⟩ := hremoved
    cases hd
  have hthree : Reachable {1, 2} true (after 3) :=
    .tail (a := twice (.remove 2 7 [tag])) htwo
      ⟨⟨.inr rfl, ⟨rfl, rfl⟩, lists_after.1, lists_after.2⟩, trivial⟩ rfl
  have hfour : Reachable {1, 2} true (after 4) :=
    .tail (a := twice (.mergeDelta 1 removed)) hthree ⟨⟨.inl rfl, ⟨rfl, 0, _, _, rfl, rfl, rfl,
      rfl⟩, ⟨_, .head _, rfl⟩, ⟨_, .head _, rfl⟩⟩, nofun⟩ rfl
  exact .tail (a := .gcEpoch 2 {1, 2} 2) hfour ⟨⟨.inr rfl, fun _ => merged_after⟩, trivial⟩ rfl

theorem collection_invisible_seven : ((after 5).collecting.site 2).replica.contains 7 =
    ((after 5).keeping.site 2).replica.contains 7 :=
  collection_invisible reachable_after 2 7

/-- The delta of the add arrives once more, and the element is back. -/
theorem ghost : ∃ w : Twin Nat, Lib.Reachable (step true) (Allowed {1, 2} true) start w ∧
    (w.collecting.site 2).replica.contains 7 ∧ ¬ (w.keeping.site 2).replica.contains 7 := by
  have hfive : Lib.Reachable (step true) (Allowed {1, 2} true) start (after 5) :=
    reachable_after.mono fun _ _ hok => hok.1
  refine ⟨after 6, .tail (a := twice (.mergeDelta 2 added)) hfive ⟨.inr rfl, ⟨rfl, 1, _, _, rfl,
    rfl, rfl, rfl⟩, ⟨_, .tail _ (.head _), rfl⟩, ⟨_, .tail _ (.head _), rfl⟩⟩ rfl, ?_, ?_⟩
  · decide +kernel
  · decide +kernel

end CollectionDemo

end P2P333.Platform333.Crdt
