import P2P333.Substrate.Ltdd.Verdict
import P2P333.Substrate.PaidSpends

/-!
# Metered sessions

`CreditBucket`, `relay_forward` and `run_session` of `substrate/crates/metering/src/lib.rs`. A
bucket is funded once; sessions pull chunks from a transport and pay for each one before it is
forwarded. The chunk that cannot be paid for is pulled, refused, and ends its session. A transport
is the list of the chunks that are still to come.

Results:
1. `runSession_spec`: a session in terms of the chunks that it pays for.
2. `session_exact`: a session forwards the longest prefix that it can pay for, and no store that
   keeps or loses whole batches ever sees a free ride.
3. `metered_run`: what the trace of a run of sessions says about the bucket.
-/

namespace P2P333.Substrate

/-! ## Definitions -/

def bucketFunded (cid : String) (balance : UInt64) : Event :=
  (Event.new cid "account_funded").withAttr "balance" (num balance)

def bucketDebited (cid : String) (amount remaining : UInt64) : Event :=
  ((Event.new cid "credit_debited").withAttr "amount" (num amount)).withAttr "remaining"
    (num remaining)

structure CreditBucket where
  balance : UInt64

namespace CreditBucket

def new (cid : String) (balance : UInt64) : CreditBucket × List (List Event) :=
  (⟨balance⟩, [[bucketFunded cid balance]])

/-- Debits are all or nothing. -/
def tryDebit (b : CreditBucket) (amount : UInt64) : Bool × CreditBucket :=
  if amount ≤ b.balance then (true, ⟨b.balance - amount⟩) else (false, b)

end CreditBucket

def relayForward (cid : String) (bucket : CreditBucket) (bytes ratePerKib : UInt64) :
    Bool × CreditBucket × List (List Event) :=
  let c := cost bytes ratePerKib
  let r := bucket.tryDebit c
  if r.1 then (true, r.2, [[relayForwarded cid bytes c, bucketDebited cid c r.2.balance]])
  else (false, r.2, [[relayGated cid bytes]])

/-- What a session leaves: the number of chunks that it has forwarded, the chunks that it has not
pulled, the bucket, and what was shipped. -/
structure SessionEnd where
  forwarded : Nat
  unread : List UInt64
  bucket : CreditBucket
  shipped : List (List Event)

def runSession (cid : String) (ratePerKib : UInt64) :
    (transport : List UInt64) → (bucket : CreditBucket) → SessionEnd
  | [], bucket => ⟨0, [], bucket, []⟩
  | bytes :: transport, bucket =>
    let r := relayForward cid bucket bytes ratePerKib
    if r.1 then
      let rest := runSession cid ratePerKib transport r.2.1
      { rest with forwarded := rest.forwarded + 1, shipped := r.2.2 ++ rest.shipped }
    else ⟨0, transport, r.2.1, r.2.2⟩

/-- What the first `n` chunks cost together. -/
def prefixCost (ratePerKib : UInt64) (chunks : List UInt64) (n : Nat) : Nat :=
  ((chunks.take n).map fun bytes => (cost bytes ratePerKib).toNat).sum

/-- What every batch of a session is. -/
inductive MeterStep : List Event → Prop
  | gated (cid : String) (bytes : UInt64) : MeterStep [relayGated cid bytes]
  | paid (cid : String) (bytes c remaining : UInt64) :
      MeterStep [relayForwarded cid bytes c, bucketDebited cid c remaining]

/-! ## One forward -/

variable {cid : String} {bucket : CreditBucket} {bytes ratePerKib : UInt64}

theorem relayForward_paid (cid : String) (h : cost bytes ratePerKib ≤ bucket.balance) :
    relayForward cid bucket bytes ratePerKib =
      (true, ⟨bucket.balance - cost bytes ratePerKib⟩,
        [[relayForwarded cid bytes (cost bytes ratePerKib),
          bucketDebited cid (cost bytes ratePerKib)
            (bucket.balance - cost bytes ratePerKib)]]) := by
  unfold relayForward CreditBucket.tryDebit
  dsimp only
  rw [if_pos h]
  rfl

theorem relayForward_gated (cid : String) (h : ¬ cost bytes ratePerKib ≤ bucket.balance) :
    relayForward cid bucket bytes ratePerKib = (false, bucket, [[relayGated cid bytes]]) := by
  unfold relayForward CreditBucket.tryDebit
  dsimp only
  rw [if_neg h]
  rfl

theorem MeterStep.unfunded {step : List Event} (h : MeterStep step) :
    sumAttr "account_funded" "balance" step = 0 := by
  cases h with
  | gated cid bytes => simp [sumAttr, relayGated]
  | paid cid bytes c remaining => simp [sumAttr, relayForwarded, bucketDebited]

theorem MeterStep.balanced {step : List Event} (h : MeterStep step) :
    sumAttr "relay_forwarded" "cost" step = sumAttr "credit_debited" "amount" step := by
  cases h with
  | gated cid bytes => simp [sumAttr, relayGated]
  | paid cid bytes c remaining => simp [sumAttr, relayForwarded, bucketDebited, u64Attr]

/-! ## One session -/

/-- The bucket after a chunk that it paid for. -/
def CreditBucket.after (b : CreditBucket) (bytes ratePerKib : UInt64) : CreditBucket :=
  ⟨b.balance - cost bytes ratePerKib⟩

theorem runSession_paid (cid : String) (chunks : List UInt64)
    (h : cost bytes ratePerKib ≤ bucket.balance) :
    runSession cid ratePerKib (bytes :: chunks) bucket =
      let rest := runSession cid ratePerKib chunks (bucket.after bytes ratePerKib)
      ⟨rest.forwarded + 1, rest.unread, rest.bucket,
        [relayForwarded cid bytes (cost bytes ratePerKib),
          bucketDebited cid (cost bytes ratePerKib) (bucket.after bytes ratePerKib).balance] ::
            rest.shipped⟩ := by
  rw [runSession, relayForward_paid cid h]
  rfl

theorem runSession_gated (cid : String) (chunks : List UInt64)
    (h : ¬ cost bytes ratePerKib ≤ bucket.balance) :
    runSession cid ratePerKib (bytes :: chunks) bucket =
      ⟨0, chunks, bucket, [[relayGated cid bytes]]⟩ := by
  rw [runSession, relayForward_gated cid h]
  rfl

theorem CreditBucket.after_add (h : cost bytes ratePerKib ≤ bucket.balance) :
    (bucket.after bytes ratePerKib).balance.toNat + (cost bytes ratePerKib).toNat =
      bucket.balance.toNat := by
  rw [after, UInt64.toNat_sub_of_le _ _ h]
  exact Nat.sub_add_cancel (UInt64.le_iff_toNat_le.mp h)

theorem prefixCost_cons (chunks : List UInt64) (n : Nat) :
    prefixCost ratePerKib (bytes :: chunks) (n + 1) =
      (cost bytes ratePerKib).toNat + prefixCost ratePerKib chunks n := by
  simp [prefixCost]

theorem prefixCost_mono (chunks : List UInt64) {n m : Nat} (h : n ≤ m) :
    prefixCost ratePerKib chunks n ≤ prefixCost ratePerKib chunks m := by
  unfold prefixCost
  exact ((List.take_sublist_take_left h).map _).sum_le_sum fun _ _ => Nat.zero_le _

theorem prefixCost_succ {chunks rest : List UInt64} {n : Nat}
    (h : chunks.drop n = bytes :: rest) : prefixCost ratePerKib chunks (n + 1) =
      prefixCost ratePerKib chunks n + (cost bytes ratePerKib).toNat := by
  have hget : chunks[n]? = some bytes := by
    rw [← List.head?_drop, h]
    rfl
  unfold prefixCost
  rw [List.take_add_one, hget, List.map_append, List.sum_append]
  rfl

/-- What a session pays, and why it ended. -/
theorem runSession_spec (cid : String) (ratePerKib : UInt64) (chunks : List UInt64)
    (bucket : CreditBucket) :
    let r := runSession cid ratePerKib chunks bucket
    r.forwarded ≤ chunks.length ∧
      r.bucket.balance.toNat + prefixCost ratePerKib chunks r.forwarded = bucket.balance.toNat ∧
      (chunks.drop r.forwarded = [] ∧ r.unread = [] ∨
        ∃ bytes, chunks.drop r.forwarded = bytes :: r.unread ∧
          r.bucket.balance.toNat < (cost bytes ratePerKib).toNat) := by
  induction chunks generalizing bucket with
  | nil => exact ⟨Nat.le_refl 0, by simp [runSession, prefixCost], .inl ⟨rfl, rfl⟩⟩
  | cons bytes chunks ih =>
    by_cases h : cost bytes ratePerKib ≤ bucket.balance
    · obtain ⟨hlength, hbalance, hrest⟩ := ih (bucket.after bytes ratePerKib)
      rw [runSession_paid cid chunks h]
      refine ⟨Nat.succ_le_succ hlength, ?_, hrest⟩
      dsimp only
      rw [prefixCost_cons, Nat.add_left_comm, hbalance, Nat.add_comm, CreditBucket.after_add h]
    · rw [runSession_gated cid chunks h]
      refine ⟨Nat.zero_le _, by simp [prefixCost], .inr ⟨bytes, rfl, ?_⟩⟩
      exact UInt64.lt_iff_toNat_lt.mp (UInt64.not_le.mp h)

/-- What a session ships. -/
theorem shipped_runSession (cid : String) (ratePerKib : UInt64) (chunks : List UInt64)
    (bucket : CreditBucket) :
    let r := runSession cid ratePerKib chunks bucket
    (∀ batch ∈ r.shipped, MeterStep batch) ∧
      countEvent "relay_forwarded" r.shipped.flatten = r.forwarded ∧
      countEvent "relay_gated" r.shipped.flatten =
        (if r.forwarded < chunks.length then 1 else 0) ∧
      sumAttr "credit_debited" "amount" r.shipped.flatten =
        prefixCost ratePerKib chunks r.forwarded := by
  induction chunks generalizing bucket with
  | nil => exact ⟨fun _ h => absurd h List.not_mem_nil, rfl, rfl, rfl⟩
  | cons bytes chunks ih =>
    by_cases h : cost bytes ratePerKib ≤ bucket.balance
    · obtain ⟨hbatches, hforwarded, hgated, hdebited⟩ := ih (bucket.after bytes ratePerKib)
      rw [runSession_paid cid chunks h]
      dsimp only
      rw [List.flatten_cons, countEvent_append, countEvent_append, sumAttr_append, hforwarded,
        hgated, hdebited, prefixCost_cons]
      refine ⟨fun batch hbatch => ?_, ?_, ?_, ?_⟩
      · rcases List.mem_cons.mp hbatch with rfl | hbatch
        · exact .paid ..
        · exact hbatches batch hbatch
      · simp [relayForwarded, bucketDebited, Nat.add_comm]
      · simp [relayForwarded, bucketDebited]
      · simp [sumAttr, relayForwarded, bucketDebited, u64Attr]
    · rw [runSession_gated cid chunks h]
      dsimp only
      refine ⟨fun batch hbatch => ?_, ?_, ?_, ?_⟩
      · rw [List.mem_singleton.mp hbatch]
        exact .gated ..
      · simp [relayGated]
      · simp [relayGated]
      · simp [sumAttr, relayGated, prefixCost]

/-- Batches that are balanced one by one are balanced together. -/
theorem balanced_of_steps {batches : List (List Event)} (h : ∀ batch ∈ batches, MeterStep batch) :
    sumAttr "relay_forwarded" "cost" batches.flatten =
      sumAttr "credit_debited" "amount" batches.flatten := by
  induction batches with
  | nil => rfl
  | cons batch rest ih =>
    rw [List.flatten_cons, sumAttr_append, sumAttr_append, (h batch List.mem_cons_self).balanced,
      ih fun b hb => h b (List.mem_cons_of_mem _ hb)]

/-- A session forwards the longest prefix of its chunks that the bucket can pay for, and nothing
else changes the bucket. It refuses one chunk if and only if that is not all of them, and pulls no
chunk after it. A store that keeps some of its batches and loses the others still finds that what
was forwarded was debited. -/
theorem session_exact (cid : String) (ratePerKib : UInt64) (chunks : List UInt64)
    (bucket : CreditBucket) :
    let r := runSession cid ratePerKib chunks bucket
    r.forwarded ≤ chunks.length ∧
      (∀ n ≤ chunks.length,
        n ≤ r.forwarded ↔ prefixCost ratePerKib chunks n ≤ bucket.balance.toNat) ∧
      r.bucket.balance.toNat + prefixCost ratePerKib chunks r.forwarded = bucket.balance.toNat ∧
      r.unread = chunks.drop (r.forwarded + 1) ∧
      countEvent "relay_forwarded" r.shipped.flatten = r.forwarded ∧
      countEvent "relay_gated" r.shipped.flatten =
        (if r.forwarded < chunks.length then 1 else 0) ∧
      ∀ kept : List (List Event), kept.Sublist r.shipped →
        sumAttr "relay_forwarded" "cost" kept.flatten =
          sumAttr "credit_debited" "amount" kept.flatten := by
  obtain ⟨hlength, hbalance, hend⟩ := runSession_spec cid ratePerKib chunks bucket
  obtain ⟨hbatches, hforwarded, hgated, -⟩ := shipped_runSession cid ratePerKib chunks bucket
  refine ⟨hlength, fun n hn => ⟨fun hle => ?_, fun hle => ?_⟩, hbalance, ?_, hforwarded, hgated,
    fun kept hkept => balanced_of_steps fun batch hbatch => hbatches batch (hkept.subset hbatch)⟩
  · exact (prefixCost_mono chunks hle).trans (hbalance ▸ Nat.le_add_left _ _)
  · rcases hend with ⟨hdrop, -⟩ | ⟨bytes, hdrop, hlt⟩
    · exact hn.trans (List.drop_eq_nil_iff.mp hdrop)
    · -- The chunk after the last one that is forwarded does not fit what is left.
      by_contra hgt
      have hnext : prefixCost ratePerKib chunks _ ≤ bucket.balance.toNat :=
        (prefixCost_mono chunks (Nat.not_le.mp hgt)).trans hle
      rw [Nat.succ_eq_add_one, prefixCost_succ hdrop, ← hbalance, Nat.add_comm] at hnext
      exact absurd (Nat.le_of_add_le_add_right hnext) (Nat.not_le.mpr hlt)
  · rcases hend with ⟨hdrop, hunread⟩ | ⟨bytes, hdrop, -⟩
    · rw [hunread, ← List.drop_drop, hdrop, List.drop_nil]
    · rw [← List.drop_drop, hdrop]
      rfl

/-! ## Runs of sessions -/

structure MeteredSession where
  cid : String
  ratePerKib : UInt64
  chunks : List UInt64

/-- One session after the other, from one bucket. -/
def runSessions : List MeteredSession → CreditBucket → CreditBucket × List (List Event)
  | [], bucket => (bucket, [])
  | s :: rest, bucket =>
    let r := runSession s.cid s.ratePerKib s.chunks bucket
    let q := runSessions rest r.bucket
    (q.1, r.shipped ++ q.2)

theorem runSessions_spec (sessions : List MeteredSession) (bucket : CreditBucket) :
    let r := runSessions sessions bucket
    (∀ batch ∈ r.2, MeterStep batch) ∧
      r.1.balance.toNat + sumAttr "credit_debited" "amount" r.2.flatten =
        bucket.balance.toNat := by
  induction sessions generalizing bucket with
  | nil => exact ⟨fun _ h => absurd h List.not_mem_nil, rfl⟩
  | cons s rest ih =>
    obtain ⟨-, hbalance, -⟩ := runSession_spec s.cid s.ratePerKib s.chunks bucket
    obtain ⟨hbatches, -, -, hdebited⟩ :=
      shipped_runSession s.cid s.ratePerKib s.chunks bucket
    obtain ⟨hrest, hsum⟩ := ih (runSession s.cid s.ratePerKib s.chunks bucket).bucket
    refine ⟨fun batch hbatch => ?_, ?_⟩
    · rcases List.mem_append.mp hbatch with hbatch | hbatch
      · exact hbatches batch hbatch
      · exact hrest batch hbatch
    · rw [runSessions]
      dsimp only
      rw [List.flatten_append, sumAttr_append, hdebited, Nat.add_left_comm, hsum, Nat.add_comm,
        hbalance]

theorem unfunded_of_steps {batches : List (List Event)} (h : ∀ batch ∈ batches, MeterStep batch) :
    sumAttr "account_funded" "balance" batches.flatten = 0 := by
  induction batches with
  | nil => rfl
  | cons batch rest ih =>
    rw [List.flatten_cons, sumAttr_append, (h batch List.mem_cons_self).unfunded,
      ih fun b hb => h b (List.mem_cons_of_mem _ hb)]

theorem sumAttr_sublist (name field : String) {es fs : List Event} (h : es.Sublist fs) :
    sumAttr name field es ≤ sumAttr name field fs :=
  ((h.filter _).map _).sum_le_sum fun _ _ => Nat.zero_le _

/-- In the trace of a bucket and any sessions that it pays for, the funds are what is left and what
was debited. A store that loses batches of the sessions finds that what was forwarded was debited,
and no more than the funds. -/
theorem metered_run (cid : String) (balance : UInt64) (sessions : List MeteredSession) :
    let opened := CreditBucket.new cid balance
    let r := runSessions sessions opened.1
    sumAttr "account_funded" "balance" (opened.2 ++ r.2).flatten =
        r.1.balance.toNat + sumAttr "credit_debited" "amount" (opened.2 ++ r.2).flatten ∧
      ∀ kept : List (List Event), kept.Sublist r.2 →
        sumAttr "relay_forwarded" "cost" kept.flatten =
            sumAttr "credit_debited" "amount" kept.flatten ∧
          sumAttr "credit_debited" "amount" kept.flatten ≤
            sumAttr "account_funded" "balance" (opened.2 ++ r.2).flatten := by
  obtain ⟨hbatches, hdebited⟩ := runSessions_spec sessions ⟨balance⟩
  have hopened : sumAttr "account_funded" "balance" [bucketFunded cid balance] = balance.toNat ∧
      sumAttr "credit_debited" "amount" [bucketFunded cid balance] = 0 := by
    simp [sumAttr, bucketFunded, u64Attr]
  dsimp only [CreditBucket.new]
  rw [List.flatten_append, List.flatten_singleton, sumAttr_append, sumAttr_append, hopened.1,
    hopened.2, unfunded_of_steps hbatches, Nat.add_zero, Nat.zero_add]
  refine ⟨hdebited.symm, fun kept hkept => ⟨?_, ?_⟩⟩
  · exact balanced_of_steps fun batch hbatch => hbatches batch (hkept.subset hbatch)
  · calc sumAttr "credit_debited" "amount" kept.flatten
        ≤ sumAttr "credit_debited" "amount" (runSessions sessions ⟨balance⟩).2.flatten :=
          sumAttr_sublist _ _ hkept.flatten
      _ ≤ balance.toNat := hdebited ▸ Nat.le_add_left _ _

end P2P333.Substrate
