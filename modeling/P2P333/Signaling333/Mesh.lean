import P2P333.Signaling333.Envelope

/-!
# The signaling mesh in memory

`333-signaling/src/lib.rs`: the scores of peers and the mesh that accepts, drops or buffers
envelopes. Scores are computed exactly, in an ordered field with a power function.

An envelope that does not verify is counted against the sender that it names.

Results:
1. `undisturbed_iff`: when forgeries leave all other outcomes as they were.
-/

namespace P2P333.Signaling333

open Std Lib Consensus333 Function

/-- `powf`, computed exactly. -/
class Powf (K : Type*) where
  powf : K → K → K

/-! ## Scores -/

structure ScoreParams (K : Type) where
  timeInMeshWeight : K
  timeInMeshCap : K
  firstDeliveryWeight : K
  firstDeliveryCap : K
  meshDeliveryWeight : K
  meshDeliveryCap : K
  meshFailureWeight : K
  invalidMsgWeight : K
  appSpecificWeight : K
  behaviourWeight : K
  banThreshold : K
  firstDeliveryDecay : K
  meshDeliveryDecay : K
  meshFailureDecay : K
  invalidMsgDecay : K
  behaviourDecay : K
  decayToZero : K

structure PeerStats (K : Type) where
  timeInMesh : K
  firstDeliveries : K
  meshDeliveries : K
  meshFailures : K
  invalidMessages : K
  appSpecific : K
  behaviourPenalty : K

structure PeerScorer (K : Type) where
  params : ScoreParams K
  stats : OrdMap NodeId (PeerStats K)

/-- What an embedder tells the scorer. -/
inductive Observation (K : Type) where
  | firstDelivery (peer : NodeId)
  | meshDelivery (peer : NodeId)
  | meshFailure (peer : NodeId)
  | invalid (peer : NodeId)
  | tick (peer : NodeId) (dtSeconds : K)
  | decay (dtSeconds : K)
  | setAppSpecific (peer : NodeId) (v : K)
  | addBehaviourPenalty (peer : NodeId) (v : K)

section Scores

variable {K : Type} [Field K] [LinearOrder K]

instance : Inhabited (PeerStats K) := ⟨⟨0, 0, 0, 0, 0, 0, 0⟩⟩

def ScoreParams.default : ScoreParams K where
  timeInMeshWeight := 1 / 100
  timeInMeshCap := 10
  firstDeliveryWeight := 1
  firstDeliveryCap := 100
  meshDeliveryWeight := 1 / 2
  meshDeliveryCap := 50
  meshFailureWeight := -1
  invalidMsgWeight := -10
  appSpecificWeight := 1
  behaviourWeight := -2
  banThreshold := -50
  firstDeliveryDecay := 99 / 100
  meshDeliveryDecay := 99 / 100
  meshFailureDecay := 99 / 100
  invalidMsgDecay := 995 / 1000
  behaviourDecay := 995 / 1000
  decayToZero := 1 / 100

namespace PeerScorer

def new (params : ScoreParams K) : PeerScorer K := ⟨params, ∅⟩

/-- The counters of a peer. -/
def get (s : PeerScorer K) (peer : NodeId) : PeerStats K := s.stats[peer]?.getD Inhabited.default

def mutate (s : PeerScorer K) (peer : NodeId) (f : PeerStats K → PeerStats K) : PeerScorer K :=
  { s with stats := s.stats.insert peer (f (s.get peer)) }

def observeFirstDelivery (s : PeerScorer K) (peer : NodeId) : PeerScorer K :=
  s.mutate peer fun c => { c with firstDeliveries := c.firstDeliveries + 1 }

def observeMeshDelivery (s : PeerScorer K) (peer : NodeId) : PeerScorer K :=
  s.mutate peer fun c => { c with meshDeliveries := c.meshDeliveries + 1 }

def observeMeshFailure (s : PeerScorer K) (peer : NodeId) : PeerScorer K :=
  s.mutate peer fun c => { c with meshFailures := c.meshFailures + 1 }

def observeInvalid (s : PeerScorer K) (peer : NodeId) : PeerScorer K :=
  s.mutate peer fun c => { c with invalidMessages := c.invalidMessages + 1 }

def tick (s : PeerScorer K) (peer : NodeId) (dtSeconds : K) : PeerScorer K :=
  s.mutate peer fun c => { c with timeInMesh := c.timeInMesh + dtSeconds }

def setAppSpecific (s : PeerScorer K) (peer : NodeId) (v : K) : PeerScorer K :=
  s.mutate peer fun c => { c with appSpecific := v }

def addBehaviourPenalty (s : PeerScorer K) (peer : NodeId) (v : K) : PeerScorer K :=
  s.mutate peer fun c => { c with behaviourPenalty := c.behaviourPenalty + v }

/-- The score that the counters give. -/
def scoreOf (p : ScoreParams K) (s : PeerStats K) : K :=
  let tim := min (s.timeInMesh * p.timeInMeshWeight) p.timeInMeshCap
  let fd := min (s.firstDeliveries * p.firstDeliveryWeight) p.firstDeliveryCap
  let md := min (s.meshDeliveries * p.meshDeliveryWeight) p.meshDeliveryCap
  let mf := s.meshFailures * p.meshFailureWeight
  let iv := s.invalidMessages * p.invalidMsgWeight
  let app := s.appSpecific * p.appSpecificWeight
  let beh := s.behaviourPenalty * p.behaviourWeight
  tim + fd + md + mf + iv + app + beh

def score (s : PeerScorer K) (peer : NodeId) : K := scoreOf s.params (s.get peer)

def isBanned (s : PeerScorer K) (peer : NodeId) : Bool := s.score peer < s.params.banThreshold

variable [Powf K]

def decayCounter (c factor dtSeconds decayToZero : K) : K :=
  let c := c * Powf.powf factor dtSeconds
  if |c| < decayToZero then 0 else c

def decayStats (p : ScoreParams K) (dtSeconds : K) (s : PeerStats K) : PeerStats K :=
  { s with
    firstDeliveries := decayCounter s.firstDeliveries p.firstDeliveryDecay dtSeconds p.decayToZero
    meshDeliveries := decayCounter s.meshDeliveries p.meshDeliveryDecay dtSeconds p.decayToZero
    meshFailures := decayCounter s.meshFailures p.meshFailureDecay dtSeconds p.decayToZero
    invalidMessages := decayCounter s.invalidMessages p.invalidMsgDecay dtSeconds p.decayToZero
    behaviourPenalty := decayCounter s.behaviourPenalty p.behaviourDecay dtSeconds p.decayToZero }

def decay (s : PeerScorer K) (dtSeconds : K) : PeerScorer K :=
  if 0 < dtSeconds then
    { s with stats := s.stats.map fun _ c => decayStats s.params dtSeconds c }
  else s

def observe (s : PeerScorer K) : Observation K → PeerScorer K
  | .firstDelivery peer => s.observeFirstDelivery peer
  | .meshDelivery peer => s.observeMeshDelivery peer
  | .meshFailure peer => s.observeMeshFailure peer
  | .invalid peer => s.observeInvalid peer
  | .tick peer dt => s.tick peer dt
  | .decay dt => s.decay dt
  | .setAppSpecific peer v => s.setAppSpecific peer v
  | .addBehaviourPenalty peer v => s.addBehaviourPenalty peer v

omit [LinearOrder K] [Powf K] in
theorem get_mutate (s : PeerScorer K) (peer q : NodeId) (f : PeerStats K → PeerStats K) :
    (s.mutate peer f).get q = if q = peer then f (s.get q) else s.get q := by
  by_cases h : q = peer
  · subst h
    simp [mutate, get]
  · rw [if_neg h, get, get, mutate, OrdMap.getElem?_insert_of_ne _ (Ne.symm h)]

theorem decayCounter_zero (factor dt z : K) : decayCounter 0 factor dt z = 0 := by
  simp only [decayCounter, zero_mul, ite_self]

theorem decayStats_default (p : ScoreParams K) (dt : K) :
    decayStats p dt Inhabited.default = Inhabited.default := by
  simp [decayStats, Inhabited.default, decayCounter_zero]

/-- A peer without counters has none to decay. -/
theorem get_decay (s : PeerScorer K) (dt : K) (q : NodeId) :
    (s.decay dt).get q = if 0 < dt then decayStats s.params dt (s.get q) else s.get q := by
  unfold decay
  split_ifs with h
  · rw [get, get, ExtTreeMap.getElem?_map]
    cases s.stats[q]? with
    | none => exact (decayStats_default _ _).symm
    | some c => rfl
  · rfl

theorem params_observe (s : PeerScorer K) (o : Observation K) :
    (s.observe o).params = s.params := by
  cases o with
  | decay dt =>
    rw [observe, decay]
    split_ifs <;> rfl
  | _ => rfl

/-! ## The counter of invalid messages -/

/-- Equal but for the counter of invalid messages. -/
def SameOthers (c c' : PeerStats K) : Prop :=
  { c with invalidMessages := 0 } = { c' with invalidMessages := 0 }

/-- Two scorers that differ in the counters of invalid messages only. -/
structure Alike (s s' : PeerScorer K) : Prop where
  params : s.params = s'.params
  others : ∀ q, SameOthers (s.get q) (s'.get q)

variable {s s' : PeerScorer K}

omit [LinearOrder K] [Powf K] in
theorem Alike.mutate (h : Alike s s') (peer : NodeId) {f f' : PeerStats K → PeerStats K}
    (hf : ∀ c c', SameOthers c c' → SameOthers (f c) (f' c')) :
    Alike (s.mutate peer f) (s'.mutate peer f') := by
  refine ⟨h.params, fun q => ?_⟩
  rw [get_mutate, get_mutate]
  split_ifs
  · exact hf _ _ (h.others q)
  · exact h.others q

theorem Alike.observe (h : Alike s s') (o : Observation K) :
    Alike (s.observe o) (s'.observe o) := by
  cases o with
  | decay dt =>
    refine ⟨(params_observe s _).trans (h.params.trans (params_observe s' _).symm), fun q => ?_⟩
    have hq := h.others q
    rw [PeerScorer.observe, PeerScorer.observe, get_decay, get_decay, h.params]
    split_ifs
    · simp only [SameOthers, PeerStats.mk.injEq] at hq
      simp only [SameOthers, decayStats, hq]
    · exact hq
  | _ =>
    simp only [PeerScorer.observe, observeFirstDelivery, observeMeshDelivery, observeMeshFailure,
      PeerScorer.observeInvalid, tick, setAppSpecific, addBehaviourPenalty]
    refine h.mutate _ fun c c' hc => ?_
    simp only [SameOthers, PeerStats.mk.injEq] at hc
    simp only [SameOthers, hc]

omit [LinearOrder K] [Powf K] in
/-- The forgeries are counted in one of the scorers. -/
theorem Alike.observeInvalid (h : Alike s s') (peer : NodeId) :
    Alike (s.observeInvalid peer) s' := by
  refine ⟨h.params, fun q => ?_⟩
  rw [PeerScorer.observeInvalid, get_mutate]
  split_ifs
  · exact h.others q
  · exact h.others q

/-- The score of a peer if this many of its messages were invalid. -/
def scoreWith (s : PeerScorer K) (peer : NodeId) (invalidMessages : K) : K :=
  scoreOf s.params { s.get peer with invalidMessages }

omit [Powf K] in
theorem Alike.score_eq (h : Alike s s') (peer : NodeId) :
    s.score peer = s'.scoreWith peer (s.get peer).invalidMessages := by
  have hpeer := h.others peer
  simp only [SameOthers, PeerStats.mk.injEq] at hpeer
  simp only [score, scoreWith, scoreOf, h.params, hpeer]

end PeerScorer

end Scores

/-! ## The mesh -/

structure InMemorySignalingMesh (K : Type) where
  me : NodeId
  topics : Finset Topic
  inbox : OrdMap String (List Envelope)
  seen : Finset (String × NodeId × UInt64)
  scorer : PeerScorer K

/-- What is asked of a mesh, and of the scorer that it gives out. -/
inductive Call (K : Type) where
  | subscribe (topic : Topic)
  | unsubscribe (topic : Topic)
  | publish (env : Envelope)
  | drain (topic : Topic)
  | observe (o : Observation K)

/-- What a call of the mesh returns. -/
inductive Answer where
  | done
  | outcome (r : Except SignalingError Unit)
  | drained (envs : List Envelope)
deriving DecidableEq

namespace InMemorySignalingMesh

variable {K : Type} [Field K] [LinearOrder K]

def new (me : NodeId) (params : ScoreParams K) : InMemorySignalingMesh K :=
  ⟨me, ∅, ∅, ∅, .new params⟩

variable [Ed25519]

def publish (m : InMemorySignalingMesh K) (env : Envelope) :
    Except SignalingError Unit × InMemorySignalingMesh K :=
  match env.verify with
  | .error _ =>
    (.error .badSignature, { m with scorer := m.scorer.observeInvalid env.sender })
  | .ok () =>
    if m.scorer.isBanned env.sender then (.error (.peerBanned env.sender), m)
    else if env.topic ∉ m.topics then (.error (.unknownTopic env.topic.asStr), m)
    else if env.addressee.any (· ≠ m.me) then (.ok (), m)
    else
      let k := (env.topic.asStr, env.sender, env.seq)
      if k ∈ m.seen then (.ok (), m)
      else
        (.ok (),
          { m with
            seen := insert k m.seen
            scorer := m.scorer.observeFirstDelivery env.sender
            inbox := m.inbox.insert env.topic.asStr
              (m.inbox[env.topic.asStr]?.getD [] ++ [env]) })

def drain (m : InMemorySignalingMesh K) (topic : Topic) : List Envelope × InMemorySignalingMesh K :=
  match m.inbox[topic.asStr]? with
  | some q => (q, { m with inbox := m.inbox.insert topic.asStr [] })
  | none => ([], m)

variable [Powf K]

def step (m : InMemorySignalingMesh K) : Call K → Answer × InMemorySignalingMesh K
  | .subscribe topic => (.done, { m with topics := insert topic m.topics })
  | .unsubscribe topic => (.done, { m with topics := m.topics.erase topic })
  | .publish env => ((m.publish env).map .outcome id)
  | .drain topic => ((m.drain topic).map .drained id)
  | .observe o => (.done, { m with scorer := m.scorer.observe o })

/-! ## Invalid messages -/

/-- What a call does to the counters of invalid messages. -/
def invalidStep (p : ScoreParams K) (invalid : NodeId → K) : Call K → NodeId → K
  | .publish env =>
    if env.verify = .ok () then invalid
      else update invalid env.sender (invalid env.sender + 1)
  | .observe (.invalid peer) => update invalid peer (invalid peer + 1)
  | .observe (.decay dt) =>
    if 0 < dt then fun q => PeerScorer.decayCounter (invalid q) p.invalidMsgDecay dt p.decayToZero
    else invalid
  | _ => invalid

/-- The counters of invalid messages after the calls. -/
def invalidAfter (p : ScoreParams K) (invalid : NodeId → K) (calls : List (Call K)) : NodeId → K :=
  calls.foldl (invalidStep p) invalid

/-- The counters of invalid messages of a mesh. -/
def invalidMessages (m : InMemorySignalingMesh K) (q : NodeId) : K :=
  (m.scorer.get q).invalidMessages

theorem verify_cases (env : Envelope) :
    env.verify = .ok () ∨ env.verify = .error .badSignature := by
  unfold Envelope.verify
  split_ifs
  · exact .inl rfl
  · exact .inr rfl

section

omit [Powf K]

theorem publish_of_forged (m : InMemorySignalingMesh K) {env : Envelope} (h : env.verify ≠ .ok ()) :
    m.publish env =
      (.error .badSignature, { m with scorer := m.scorer.observeInvalid env.sender }) := by
  rw [publish, (verify_cases env).resolve_left h]

theorem publish_of_banned (m : InMemorySignalingMesh K) {env : Envelope} (h : env.verify = .ok ())
    (hbanned : m.scorer.isBanned env.sender = true) :
    m.publish env = (.error (.peerBanned env.sender), m) := by
  simp only [publish, h, hbanned, if_true]

theorem publish_ne_banned (m : InMemorySignalingMesh K) {env : Envelope} (h : env.verify = .ok ())
    (hbanned : m.scorer.isBanned env.sender = false) :
    (m.publish env).1 ≠ .error (.peerBanned env.sender) := by
  simp only [publish, h, hbanned, Bool.false_eq_true, if_false]
  split_ifs <;> simp

end

section

omit [Ed25519] [LinearOrder K] [Powf K]

theorem invalidMessages_mutate (m : InMemorySignalingMesh K) (peer : NodeId)
    (f : PeerStats K → PeerStats K) (hf : ∀ c, (f c).invalidMessages = c.invalidMessages) :
    ({ m with scorer := m.scorer.mutate peer f } : InMemorySignalingMesh K).invalidMessages =
      m.invalidMessages := by
  funext q
  simp only [invalidMessages, PeerScorer.get_mutate]
  split_ifs
  · exact hf _
  · rfl

theorem invalidMessages_observeInvalid (m : InMemorySignalingMesh K) (peer : NodeId) :
    ({ m with scorer := m.scorer.observeInvalid peer } : InMemorySignalingMesh K).invalidMessages =
      update m.invalidMessages peer (m.invalidMessages peer + 1) := by
  funext q
  simp only [invalidMessages, PeerScorer.observeInvalid, PeerScorer.get_mutate,
    update_apply]
  split_ifs with h
  · rw [h]
  · rfl

end

/-- The counters of invalid messages do not depend on anything else. -/
theorem invalid_step (m : InMemorySignalingMesh K) (c : Call K) :
    (m.step c).2.invalidMessages = invalidStep m.scorer.params m.invalidMessages c ∧
      (m.step c).2.scorer.params = m.scorer.params := by
  cases c with
  | subscribe | unsubscribe => exact ⟨rfl, rfl⟩
  | drain topic =>
    simp only [step, drain, Prod.map_snd, id_eq]
    split <;> exact ⟨rfl, rfl⟩
  | publish env =>
    simp only [step, Prod.map_snd, id_eq]
    by_cases hverify : env.verify = .ok ()
    · simp only [publish, hverify, invalidStep, if_true]
      split_ifs
      · exact ⟨rfl, rfl⟩
      · exact ⟨rfl, rfl⟩
      · exact ⟨rfl, rfl⟩
      · exact ⟨invalidMessages_mutate m env.sender _ fun _ => rfl, rfl⟩
      · exact ⟨rfl, rfl⟩
    · rw [publish_of_forged m hverify, invalidStep, if_neg hverify]
      exact ⟨invalidMessages_observeInvalid m env.sender, rfl⟩
  | observe o =>
    refine ⟨?_, PeerScorer.params_observe _ o⟩
    cases o with
    | invalid peer => exact invalidMessages_observeInvalid m peer
    | decay dt =>
      funext q
      simp only [step, PeerScorer.observe, invalidMessages, invalidStep, PeerScorer.get_decay]
      split_ifs <;> rfl
    | _ => exact invalidMessages_mutate m _ _ fun _ => rfl

/-! ## Runs with forgeries -/

/-- Two meshes that differ in the counters of invalid messages only. -/
structure Alike (m m' : InMemorySignalingMesh K) : Prop where
  me : m.me = m'.me
  topics : m.topics = m'.topics
  inbox : m.inbox = m'.inbox
  seen : m.seen = m'.seen
  scorer : m.scorer.Alike m'.scorer

variable {m m' : InMemorySignalingMesh K}

theorem Alike.step_forged (h : Alike m m') {env : Envelope} (henv : env.verify ≠ .ok ()) :
    Alike (m.step (.publish env)).2 m' := by
  simp only [step, publish_of_forged m henv, Prod.map_snd, id_eq]
  exact ⟨h.me, h.topics, h.inbox, h.seen, h.scorer.observeInvalid _⟩

/-- The verdict on the sender of a genuine envelope. -/
def Verdict (m m' : InMemorySignalingMesh K) (c : Call K) : Prop :=
  ∀ env, c = .publish env → env.verify = .ok () →
    m.scorer.isBanned env.sender = m'.scorer.isBanned env.sender

/-- With the same verdict a call has the same answer. -/
theorem Alike.step (h : Alike m m') {c : Call K} (hverdict : Verdict m m' c) :
    (m.step c).1 = (m'.step c).1 ∧ Alike (m.step c).2 (m'.step c).2 := by
  obtain ⟨me, topics, inbox, seen, s⟩ := m
  obtain ⟨me', topics', inbox', seen', s'⟩ := m'
  obtain ⟨rfl, rfl, rfl, rfl, hs⟩ := h
  cases c with
  | subscribe | unsubscribe => exact ⟨rfl, rfl, rfl, rfl, rfl, hs⟩
  | drain topic =>
    simp only [InMemorySignalingMesh.step, drain, Prod.map_snd, id_eq]
    split <;> exact ⟨rfl, rfl, rfl, rfl, rfl, hs⟩
  | observe o => exact ⟨rfl, rfl, rfl, rfl, rfl, hs.observe o⟩
  | publish env =>
    simp only [InMemorySignalingMesh.step, Prod.map_fst, Prod.map_snd, id_eq]
    by_cases hverify : env.verify = .ok ()
    · have hbanned : s.isBanned env.sender = s'.isBanned env.sender := hverdict env rfl hverify
      simp only [publish, hverify, hbanned]
      split_ifs
      · exact ⟨rfl, rfl, rfl, rfl, rfl, hs⟩
      · exact ⟨rfl, rfl, rfl, rfl, rfl, hs⟩
      · exact ⟨rfl, rfl, rfl, rfl, rfl, hs⟩
      · exact ⟨rfl, rfl, rfl, rfl, rfl, hs.observe (.firstDelivery env.sender)⟩
      · exact ⟨rfl, rfl, rfl, rfl, rfl, hs⟩
    · rw [publish_of_forged _ hverify, publish_of_forged _ hverify]
      exact ⟨rfl, rfl, rfl, rfl, rfl, hs.observe (.invalid env.sender)⟩

/-- Different verdicts show in the answers. -/
theorem verdict_of_answer {c : Call K} (h : (m.step c).1 = (m'.step c).1) : Verdict m m' c := by
  rintro env rfl hverify
  simp only [InMemorySignalingMesh.step, Prod.map_fst, Answer.outcome.injEq] at h
  cases hb : m.scorer.isBanned env.sender with
  | true =>
    cases hb' : m'.scorer.isBanned env.sender with
    | true => rfl
    | false =>
      rw [publish_of_banned m hverify hb] at h
      exact absurd h.symm (publish_ne_banned m' hverify hb')
  | false =>
    cases hb' : m'.scorer.isBanned env.sender with
    | true =>
      rw [publish_of_banned m' hverify hb'] at h
      exact absurd h (publish_ne_banned m hverify hb)
    | false => rfl

/-- The marked calls publish forgeries. -/
def Forged (l : List (Call K × Bool)) : Prop :=
  ∀ x ∈ l, x.2 = true → ∃ env, x.1 = .publish env ∧ env.verify ≠ .ok ()

/-- The marked calls change none of the other answers. -/
def Undisturbed (m : InMemorySignalingMesh K) (l : List (Call K × Bool)) : Prop :=
  Machine.originalOutputs step m l = Machine.outputs step m (Machine.originals l)

/-- Whenever a genuine envelope is published, the score of its sender is on the same side of the
threshold with all forgeries counted as without the marked ones. The second mesh is the one without
them; the counters are those of the first one. -/
def SameSide (invalid : NodeId → K) (m : InMemorySignalingMesh K)
    (l : List (Call K × Bool)) : Prop :=
  ∀ before env rest, l = before ++ (.publish env, false) :: rest → env.verify = .ok () →
    let now := (Machine.after step m (Machine.originals before)).scorer
    let counted := invalidAfter m.scorer.params invalid (before.map Prod.fst) env.sender
    now.scoreWith env.sender counted < now.params.banThreshold ↔ now.isBanned env.sender = true

omit [Ed25519] [Powf K] in
theorem Alike.isBanned_iff (h : Alike m m') (q : NodeId) :
    m.scorer.isBanned q = true ↔
      m'.scorer.scoreWith q (m.invalidMessages q) < m'.scorer.params.banThreshold := by
  rw [PeerScorer.isBanned, decide_eq_true_iff, h.scorer.score_eq, h.scorer.params]
  rfl

omit [Powf K] in
theorem Alike.verdict_iff (h : Alike m m') {c : Call K} : Verdict m m' c ↔
    ∀ env, c = .publish env → env.verify = .ok () →
      (m'.scorer.scoreWith env.sender (m.invalidMessages env.sender) <
        m'.scorer.params.banThreshold ↔
        m'.scorer.isBanned env.sender = true) := by
  refine forall₃_congr fun env _ _ => ?_
  rw [← h.isBanned_iff, Bool.eq_iff_iff]

theorem sameSide_cons (invalid : NodeId → K) (c : Call K) (inserted : Bool)
    (l : List (Call K × Bool)) :
    SameSide invalid m' ((c, inserted) :: l) ↔
      (inserted = false → ∀ env, c = .publish env → env.verify = .ok () →
        (m'.scorer.scoreWith env.sender (invalid env.sender) < m'.scorer.params.banThreshold ↔
          m'.scorer.isBanned env.sender = true)) ∧
      SameSide (invalidStep m'.scorer.params invalid c)
        (if inserted then m' else (m'.step c).2) l := by
  have hparams : (if inserted then m' else (m'.step c).2).scorer.params = m'.scorer.params := by
    split_ifs
    · rfl
    · exact (invalid_step m' c).2
  have hafter : ∀ before : List (Call K × Bool),
      Machine.after step m' (Machine.originals ((c, inserted) :: before)) =
        Machine.after step (if inserted then m' else (m'.step c).2) (Machine.originals before) := by
    intro before
    cases inserted <;> rfl
  constructor
  · intro h
    refine ⟨?_, fun before env rest hl hverify => ?_⟩
    · rintro rfl env rfl hverify
      exact h [] env l rfl hverify
    · have hlater := h ((c, inserted) :: before) env rest (by rw [hl, List.cons_append]) hverify
      rw [hafter] at hlater
      rw [hparams]
      exact hlater
  · rintro ⟨hfirst, hlater⟩ before env rest hl hverify
    cases before with
    | nil =>
      cases hl
      exact hfirst rfl env rfl hverify
    | cons x before =>
      cases hl
      rw [hafter, List.map_cons]
      have h := hlater before env rest rfl hverify
      rw [hparams] at h
      exact h

theorem agree_iff (h : Alike m m') {l : List (Call K × Bool)} (hl : Forged l) :
    Machine.originalOutputs step m l = Machine.outputs step m' (Machine.originals l) ↔
      SameSide m.invalidMessages m' l := by
  induction l generalizing m m' with
  | nil =>
    refine iff_of_true rfl fun before env rest hnil => ?_
    cases List.append_ne_nil_of_right_ne_nil before (List.cons_ne_nil _ rest) hnil.symm
  | cons x l ih =>
    obtain ⟨c, inserted⟩ := x
    have hrest : Forged l := fun y hy => hl y (List.mem_cons_of_mem _ hy)
    have hstep : invalidStep m'.scorer.params m.invalidMessages c =
      (m.step c).2.invalidMessages := by
      rw [← h.scorer.params]
      exact (invalid_step m c).1.symm
    rw [sameSide_cons, hstep]
    cases inserted with
    | true =>
      obtain ⟨env, rfl, hverify⟩ := hl (c, true) List.mem_cons_self rfl
      have hih := ih (h.step_forged hverify) hrest
      simp only [Machine.originalOutputs, Machine.originals, List.map_cons, Machine.outputs,
        List.zip_cons_cons, List.filterMap_cons, if_true, List.filter_cons, Bool.not_true,
        Bool.false_eq_true, if_false, Bool.true_eq_false, false_imp_iff, true_and] at hih ⊢
      exact hih
    | false =>
      simp only [Machine.originalOutputs, Machine.originals, List.map_cons, Machine.outputs,
        List.zip_cons_cons, List.filterMap_cons, List.filter_cons, Bool.not_false, if_true,
        Bool.false_eq_true, if_false, true_imp_iff, List.cons.injEq, ← h.verdict_iff]
      constructor
      · rintro ⟨hanswer, hanswers⟩
        have hverdict := verdict_of_answer hanswer
        exact ⟨hverdict, (ih (h.step hverdict).2 hrest).mp hanswers⟩
      · rintro ⟨hverdict, hlater⟩
        exact ⟨(h.step hverdict).1, (ih (h.step hverdict).2 hrest).mpr hlater⟩

/-- Forgeries leave all other outcomes as they were exactly if they push nobody over the threshold.
-/
theorem undisturbed_iff (m : InMemorySignalingMesh K) (l : List (Call K × Bool)) (hl : Forged l) :
    Undisturbed m l ↔ SameSide m.invalidMessages m l :=
  agree_iff ⟨rfl, rfl, rfl, rfl, rfl, fun _ => rfl⟩ hl

end InMemorySignalingMesh

namespace Demo

open InMemorySignalingMesh Consensus333.Demo

attribute [local instance] plainEd25519

/-- Whole powers. -/
@[reducible] def wholePowf : Powf ℚ := ⟨fun x dt => x ^ dt.num⟩

attribute [local instance] wholePowf

def peer : NodeId := .replicate 32 2

/-- An offer that nobody signed. -/
def forgery : Envelope := ⟨.offer, peer, none, [], 1, .replicate 64 0⟩

def genuine : Envelope := Envelope.sign peer .offer none [] 1

/-- The peer publishes an offer after a number of forgeries that name it. -/
def withForgeries (n : Nat) : List (Call ℚ × Bool) :=
  (.subscribe .offer, false) :: List.replicate n (.publish forgery, true) ++
    [(.publish genuine, false), (.drain .offer, false)]

def mesh : InMemorySignalingMesh ℚ := .new (.replicate 32 1) .default

theorem forged_withForgeries (n : Nat) : Forged (withForgeries n) := by
  intro x hx hforged
  rcases List.mem_append.mp hx with hx | hx
  · rcases List.mem_cons.mp hx with rfl | hx
    · cases hforged
    · rw [List.eq_of_mem_replicate hx]
      exact ⟨forgery, rfl, by decide +kernel⟩
  · rcases List.mem_cons.mp hx with rfl | hx
    · cases hforged
    · rw [List.mem_singleton.mp hx] at hforged
      cases hforged

/-- Six forgeries ban the peer that they name. -/
theorem silenced : ¬ ∀ (m : InMemorySignalingMesh ℚ) (l : List (Call ℚ × Bool)), Forged l →
    Undisturbed m l := by
  intro h
  have hsilenced : ¬ Undisturbed mesh (withForgeries 6) := by
    unfold Undisturbed
    decide +kernel
  exact hsilenced (h mesh _ (forged_withForgeries 6))

/-- Five are not enough. -/
theorem undisturbed_iff_five : SameSide mesh.invalidMessages mesh (withForgeries 5) :=
  (undisturbed_iff mesh (withForgeries 5) (forged_withForgeries 5)).mp (by
    unfold Undisturbed
    decide +kernel)

end Demo

end P2P333.Signaling333
