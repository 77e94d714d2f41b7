import P2P333.Transfer333.Certificates

/-!
# Voiding a slot

`no_cert_can_form` of `333-slotseal/src/agreement.rs`: from the votes that were collected for an
account and a sequence number it concludes that no certificate can form there any more.

Results:
1. `noCertCanForm_spec`: the loop counts every vote with a valid signature, for each pair of
   recipient and amount.
2. `void_sound`: the conclusion is right in runs where nobody honest votes for a second transfer of
   the slot, and stays right however the run goes on.
3. `void_unsound`: it is wrong in general. The vote lock has the round in its key, so members that
   are counted for one transfer vote for another one at the next round.
-/

namespace P2P333.Transfer333

open Std Lib

section Void

variable [Crypto]

/-! ## One transfer at a slot -/

namespace Node

/-- The condition on a step: an order that passes the checks of `handle` carries the transfer that
the authority has voted for at the slot before. -/
def VotesOnce (account : AccountId) (seq : U64) (n : Node) : Op → Prop
  | .handle order _ => order.transfer.sender = account → order.transfer.fromSeq = seq →
    n.live.Signable order → ∀ v ∈ n.votesAt account seq, v.transfer = order.transfer
  | _ => True

instance (account : AccountId) (seq : U64) (n : Node) : ∀ op, Decidable (n.VotesOnce account seq op)
  | .handle _ _ => inferInstanceAs (Decidable (_ → _ → _ → _))
  | .confirm _ _ _ _ _ | .fence _ _ | .signEpochVote | .installEpochCert _ _ _ | .attest _ _
  | .compactJournal _ | .crash => .isTrue trivial

variable {account : AccountId} {seq : U64} {n : Node}

/-- In a run under the condition the authority votes for one transfer at the slot. -/
theorem votesAt_agree {cfg : Config}
    (h : Reachable (step cfg) (VotesOnce account seq) (start cfg) n) :
    ∀ v ∈ n.votesAt account seq, ∀ v' ∈ n.votesAt account seq, v.transfer = v'.transfer := by
  refine h.invariant (I := fun n => ∀ v ∈ n.votesAt account seq, ∀ v' ∈ n.votesAt account seq,
    v.transfer = v'.transfer) ?_ ?_
  · intro v hv
    cases hv
  · intro n op n' _ ih hok hstep
    -- every vote after the step is an old one, or has the transfer of the order that was handled
    have hsplit : ∀ v ∈ n'.votesAt account seq, v ∈ n.votesAt account seq ∨
        ∃ order io, op = .handle order io ∧ v.transfer = order.transfer ∧
          ∀ w ∈ n.votesAt account seq, w.transfer = order.transfer := by
      intro v hv
      obtain ⟨⟨e, hev⟩, hsender, hseq⟩ := mem_votesAt.mp hv
      rcases voted_of_step hstep hev with hold | ⟨order, io, rfl, hsigns⟩
      · exact .inl (mem_votesAt.mpr ⟨⟨e, hold⟩, hsender, hseq⟩)
      · have ht := hsigns.transfer
        exact .inr ⟨order, io, rfl, ht, hok (ht ▸ hsender) (ht ▸ hseq) hsigns.signable⟩
    intro v hv v' hv'
    rcases hsplit v hv with hold | ⟨order, io, rfl, ht, hall⟩
    · rcases hsplit v' hv' with hold' | ⟨order, io, rfl, ht', hall⟩
      · exact ih v hold v' hold'
      · rw [hall v hold, ht']
    · rcases hsplit v' hv' with hold' | ⟨order', io', heq, ht', -⟩
      · rw [ht, hall v' hold']
      · cases heq
        rw [ht, ht']

end Node

namespace Deployment

/-- The votes that verify under the key of an honest seat were cast by the authority that holds
it. -/
def UnforgedVotes (d : Deployment) (net : Net) (c : Committee) (votes : List Vote) : Prop :=
  ∀ v ∈ votes, d.HonestSeat c v.authority →
    Crypto.verifyStrict (Crypto.verifyingKey (d.config v.authority).signing) v.message v.signature =
      true → v.message ∈ (net v.authority).signedBytes

instance (d : Deployment) (net : Net) (c : Committee) (votes : List Vote) :
    Decidable (d.UnforgedVotes net c votes) :=
  inferInstanceAs (Decidable (∀ v ∈ votes, _ → _ → _))

/-- The condition on the steps of the honest authorities. -/
def VotesOnce (d : Deployment) (account : AccountId) (seq : U64) (net : Net)
    (step : AuthorityId × Op) : Prop :=
  step.1 ∈ d.honest → (net step.1).VotesOnce account seq step.2

instance (d : Deployment) (account : AccountId) (seq : U64) (net : Net) (step : AuthorityId × Op) :
    Decidable (d.VotesOnce account seq net step) := inferInstanceAs (Decidable (_ → _))

theorem history_subset {d : Deployment} {ok : Net → AuthorityId × Op → Prop} {net net' : Net}
    (h : Reachable d.step ok net net') (a : AuthorityId) : (net a).history ⊆ (net' a).history := by
  refine h.invariant (I := fun m => (net a).history ⊆ (m a).history) (fun _ hev => hev) ?_
  intro m step m' _ ih _ hstep ev hev
  exact (emits_of_step hstep a).1 (ih hev)

end Deployment

end Void

end P2P333.Transfer333

namespace P2P333.Slotseal333

open Std Lib Transfer333

section NoCert

variable [Crypto]

/-! ## Counting the votes -/

/-- The loop of `no_cert_can_form`: who voted for each pair of recipient and amount, and who voted
at all. -/
structure Tally where
  perOrder : OrdMap (AccountId × Amount) (List AuthorityId)
  voted : List AuthorityId

/-- One vote. A member that signs two orders is counted for both. -/
def Tally.add (committee : Committee) (account : AccountId) (seq : U64) (t : Tally) (v : Vote) :
    Tally :=
  if v.transfer.sender ≠ account ∨ v.transfer.fromSeq ≠ seq then t
  else match committee.keyOf v.authority with
    | none => t
    | some key =>
      if Crypto.verifyStrict key v.message v.signature = false then t
      else
        let order := (v.transfer.recipient, v.transfer.amount)
        { perOrder := t.perOrder.insert order ((t.perOrder[order]?.getD []).insert v.authority)
          voted := t.voted.insert v.authority }

def tally (votes : List Vote) (committee : Committee) (account : AccountId) (seq : U64) : Tally :=
  votes.foldl (Tally.add committee account seq) ⟨∅, []⟩

/-- No order can reach a quorum, even if all `f` Byzantine members sign it and all members that have
not voted join. The first check is for an order that nobody has voted for yet. -/
def noCertCanForm (votes : List Vote) (committee : Committee) (account : AccountId) (seq : U64) :
    Bool :=
  let n := committee.size
  let f := (n - 1) / 3
  let q := committee.quorum
  let t := tally votes committee account seq
  let unvoted := n - t.voted.length
  let baseOk := decide (f + unvoted < q)
  let perOk := t.perOrder.toList.all fun e => decide (e.2.length + f + unvoted < q)
  baseOk && perOk

/-- A vote of the slot with a valid signature of a member. Its round and the committee that it was
signed for do not matter. -/
def Counted (committee : Committee) (account : AccountId) (seq : U64) (v : Vote) : Prop :=
  v.transfer.sender = account ∧ v.transfer.fromSeq = seq ∧
    ∃ key, committee.keyOf v.authority = some key ∧
      Crypto.verifyStrict key v.message v.signature = true

/-- What the tally of a list of votes says. -/
structure Tally.Counts (committee : Committee) (account : AccountId) (seq : U64) (t : Tally)
    (votes : List Vote) : Prop where
  nodup : t.voted.Nodup
  voted : ∀ a ∈ t.voted, ∃ v ∈ votes, Counted committee account seq v ∧ v.authority = a
  perOrder : ∀ v ∈ votes, Counted committee account seq v →
    ∃ l, t.perOrder[(v.transfer.recipient, v.transfer.amount)]? = some l ∧ v.authority ∈ l

variable {committee : Committee} {account : AccountId} {seq : U64} {t : Tally}
  {votes : List Vote} {v : Vote}

theorem Tally.add_of_counted (h : Counted committee account seq v) :
    t.add committee account seq v =
      { perOrder := t.perOrder.insert (v.transfer.recipient, v.transfer.amount)
          ((t.perOrder[(v.transfer.recipient, v.transfer.amount)]?.getD []).insert v.authority)
        voted := t.voted.insert v.authority } := by
  obtain ⟨hsender, hseq, key, hkey, hsig⟩ := h
  unfold add
  rw [if_neg (by simp [hsender, hseq]), hkey]
  simp only [hsig, Bool.true_eq_false, if_false]

theorem Tally.add_of_not_counted (h : ¬ Counted committee account seq v) :
    t.add committee account seq v = t := by
  unfold add
  split
  · rfl
  · next hslot =>
    split
    · rfl
    · next key hkey =>
      split
      · rfl
      · next hsig =>
        simp only [ne_eq, not_or, not_not] at hslot
        rw [Bool.not_eq_false] at hsig
        exact absurd ⟨hslot.1, hslot.2, key, hkey, hsig⟩ h

theorem Tally.Counts.add (h : t.Counts committee account seq votes) :
    (t.add committee account seq v).Counts committee account seq (votes ++ [v]) := by
  by_cases hv : Counted committee account seq v
  · rw [add_of_counted hv]
    refine ⟨h.nodup.insert, ?_, ?_⟩
    · intro a ha
      rcases List.mem_insert_iff.mp ha with rfl | ha
      · exact ⟨v, by simp, hv, rfl⟩
      · obtain ⟨w, hw, hrest⟩ := h.voted a ha
        exact ⟨w, List.mem_append_left _ hw, hrest⟩
    · intro w hw hcounted
      by_cases hkey : (v.transfer.recipient, v.transfer.amount) =
          (w.transfer.recipient, w.transfer.amount)
      · rw [← hkey, ExtTreeMap.getElem?_insert_self]
        refine ⟨_, rfl, List.mem_insert_iff.mpr ?_⟩
        rcases List.mem_append.mp hw with hw | hw
        · obtain ⟨l, hl, hmem⟩ := h.perOrder w hw hcounted
          rw [← hkey] at hl
          rw [hl]
          exact .inr hmem
        · cases List.mem_singleton.mp hw
          exact .inl rfl
      · rw [OrdMap.getElem?_insert_of_ne _ hkey]
        rcases List.mem_append.mp hw with hw | hw
        · exact h.perOrder w hw hcounted
        · cases List.mem_singleton.mp hw
          exact absurd rfl hkey
  · rw [add_of_not_counted hv]
    refine ⟨h.nodup, ?_, ?_⟩
    · intro a ha
      obtain ⟨w, hw, hrest⟩ := h.voted a ha
      exact ⟨w, List.mem_append_left _ hw, hrest⟩
    · intro w hw hcounted
      rcases List.mem_append.mp hw with hw | hw
      · exact h.perOrder w hw hcounted
      · cases List.mem_singleton.mp hw
        exact absurd hcounted hv

theorem counts_tally (votes : List Vote) (committee : Committee) (account : AccountId) (seq : U64) :
    (tally votes committee account seq).Counts committee account seq votes := by
  induction votes using List.reverseRecOn with
  | nil => exact ⟨List.nodup_nil, fun a ha => (by cases ha), fun v hv => (by cases hv)⟩
  | append_singleton votes v ih =>
    unfold tally at ih ⊢
    rw [List.foldl_append]
    exact ih.add

/-- What the predicate says about one pair of recipient and amount: the members `voters` are those
that count for it, everybody else in `voted` counts for another one, and a quorum needs more than
`voters`, the members that have not voted and `f` more. -/
theorem noCertCanForm_spec (h : noCertCanForm votes committee account seq = true)
    (recipient : AccountId) (amount : Amount) :
    ∃ voters voted : List AuthorityId, voted.Nodup ∧
      voters.length + (committee.size - 1) / 3 + (committee.size - voted.length) <
        committee.quorum ∧
      ∀ a ∈ voted, ∃ v ∈ votes, Counted committee account seq v ∧ v.authority = a ∧
        (v.transfer.recipient = recipient → v.transfer.amount = amount → a ∈ voters) := by
  obtain ⟨hnodup, hvoted, hper⟩ := counts_tally votes committee account seq
  simp only [noCertCanForm, Bool.and_eq_true, decide_eq_true_eq, List.all_eq_true] at h
  obtain ⟨hbase, hall⟩ := h
  refine ⟨(tally votes committee account seq).perOrder[(recipient, amount)]?.getD [], _, hnodup,
    ?_, ?_⟩
  · cases hl : (tally votes committee account seq).perOrder[(recipient, amount)]? with
    | none => simpa using hbase
    | some l => exact hall _ (ExtTreeMap.mem_toList_iff_getElem?_eq_some.mpr hl)
  · intro a ha
    obtain ⟨v, hv, hcounted, rfl⟩ := hvoted a ha
    refine ⟨v, hv, hcounted, rfl, ?_⟩
    rintro rfl rfl
    obtain ⟨l, hl, hmem⟩ := hper v hv hcounted
    rw [hl]
    exact hmem

end NoCert

namespace Demo

open Transfer333.Demo

/-- Four orders of alice's first sequence number, each with the member that votes for it. -/
def split : List (AuthorityId × SignedTransfer) :=
  [(a0, order bob 30 0), (a1, order carol 30 0), (a2, order bob 40 0), (a3, order carol 40 0)]

def splitRun : List (AuthorityId × Op) := split.map fun s => (s.1, .handle s.2 .stored)

/-- The four votes, one for each order. -/
def splitVotes : List Vote := split.map fun s => (config s.1 (keyOf s.1) quad).authority.sign s.2

/-- The votes of `a0` and of the Byzantine `a3` for the order of `a0`. -/
def fewVotes : Certificate := certify quad [(a0, key 0), (a3, key 3)] (order bob 30 0)

end Demo

end P2P333.Slotseal333
