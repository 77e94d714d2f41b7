import P2P333.Consensus333.Basic

/-!
# Settlement consensus: finality over a run

`finalize` takes the maximum of the level that is stored with the block and of the one that the
votes amount to, so that the level of a height does not go down. But `propose` puts a new block in
the place of the old one, however final that was, and sets the level back.

Results:
1. `grows_step`: what a call does to a block that has been confirmed.
2. `never_regresses_iff`: in a run, finality does not regress exactly if proposals come to heights
   only where nothing has been confirmed.
3. `proposed_again`: a committed block is replaced.
-/

namespace P2P333.Consensus333

open Lib InMemoryConsensus

section Finality

variable [Ed25519]

/-! ## Statement -/

/-- Once a height is committed it stays so, with its block. Once it is confirmed, the level that
`block` and `finalize` tell does not drop. -/
structure NeverRegresses (vs : ValidatorSet) (l : List Call) : Prop where
  committed : ∀ done more height, done ++ [.finalize height] <+: more → more <+: l →
    ((run vs done).finalize height).1 = .ok .committed →
    ∃ b, (run vs (done ++ [.finalize height])).block height = .ok b ∧ b.finality = .committed ∧
      (run vs more).block height = .ok b ∧ ((run vs more).finalize height).1 = .ok .committed
  confirmed : ∀ done more more' height, done ++ [.finalize height] <+: more → more <+: more' →
    more' <+: l → ((run vs done).finalize height).1 = .ok .confirmed →
    ∃ b b', (run vs more).block height = .ok b ∧ (run vs more').block height = .ok b' ∧
      b.finality ≤ b'.finality ∧ ∃ level level', ((run vs more).finalize height).1 = .ok level ∧
        ((run vs more').finalize height).1 = .ok level' ∧ level ≤ level'

/-! ## Levels -/

variable {s : InMemoryConsensus} {height : UInt64} {b b' : Block} {vs : ValidatorSet}
  {l done more : List Call}

/-- The block is the same, and its level is no lower. -/
structure Block.Grows (b b' : Block) : Prop where
  same : b' = { b with finality := b'.finality }
  le : b.finality ≤ b'.finality

section

omit [Ed25519]

theorem Block.Grows.refl (b : Block) : b.Grows b := ⟨rfl, le_refl _⟩

theorem Block.Grows.trans {b'' : Block} (h : b.Grows b') (h' : b'.Grows b'') : b.Grows b'' := by
  refine ⟨?_, h.le.trans h'.le⟩
  have hsame := h.same
  rw [h'.same, hsame]

theorem Block.Grows.hash (h : b.Grows b') : b'.hash = b.hash := by
  rw [h.same]
  rfl

/-- There is nothing above a commit. -/
theorem Block.Grows.eq_of_committed (h : b.Grows b') (hb : b.finality = .committed) : b' = b := by
  have hlevel : b'.finality = b.finality :=
    le_antisymm (hb ▸ BlockFinality.le_committed _) h.le
  rw [h.same, hlevel]

end

omit [Ed25519] in
theorem block_eq_ok : s.block height = .ok b ↔ (s.entry height).block = some b := by
  rw [block_eq]
  cases (s.entry height).block with
  | none => exact iff_of_false nofun nofun
  | some old => simp

omit [Ed25519] in
theorem finalize_of_block (h : (s.entry height).block = some b) :
    (s.finalize height).1 = .ok (s.raised b height).finality := by
  rw [finalize_eq, h]

theorem tally_mono (c : Call) (blockHash : Hash) :
    s.tally height blockHash ≤ (s.step c).2.tally height blockHash := by
  have hcount : ∀ kind, s.countVotes height blockHash kind ≤
      (s.step c).2.countVotes height blockHash kind := by
    intro kind
    rw [countVotes_eq, countVotes_eq]
    exact Finset.card_le_card fun id hid => mem_voters.mpr (votes_mono c (mem_voters.mp hid))
  have hprevotes := hcount .prevote
  have hprecommits := hcount .precommit
  unfold tally
  rw [validators_step]
  split_ifs <;>
    first
    | exact BlockFinality.tentative_le _
    | exact BlockFinality.le_committed _
    | exact le_refl _
    | omega

/-- The call proposes no block for a height where one has been confirmed. -/
def InMemoryConsensus.Keeps (s : InMemoryConsensus) (c : Call) : Prop :=
  ∀ b, c = .propose b → s.Accepts b → ∀ old, s.block b.height = .ok old → old.finality = .tentative

/-- A block that has been confirmed stays, and its level does not drop. -/
theorem grows_step {c : Call} (hc : s.Keeps c) (h : (s.entry height).block = some b)
    (hb : b.finality ≠ .tentative) : ∃ b', ((s.step c).2.entry height).block = some b' ∧
      b.Grows b' := by
  rw [entry_block_step]
  cases c with
  | vote v => exact ⟨b, h, .refl b⟩
  | propose p =>
    have hnot : ¬ (s.Accepts p ∧ p.height = height) := by
      rintro ⟨haccepts, rfl⟩
      exact hb (hc p rfl haccepts b (block_eq_ok.mpr h))
    exact ⟨b, (if_neg hnot).trans h, .refl b⟩
  | finalize height' =>
    dsimp only
    split_ifs
    · rw [h]
      exact ⟨s.raised b height, rfl, rfl, le_max_left _ _⟩
    · exact ⟨b, h, .refl b⟩

/-- The same along a run, and the level that a finalization would tell does not drop either. -/
theorem grows_run (hkeeps : ∀ done c, done ++ [c] <+: l → (run vs done).Keeps c)
    (hdone : done <+: more) (hmore : more <+: l)
    (h : ((run vs done).entry height).block = some b) (hb : b.finality ≠ .tentative) :
    ∃ b', ((run vs more).entry height).block = some b' ∧ b.Grows b' ∧
      ((run vs done).raised b height).finality ≤ ((run vs more).raised b' height).finality := by
  obtain ⟨rest, rfl⟩ := hdone
  induction rest using List.reverseRecOn with
  | nil =>
    rw [List.append_nil]
    exact ⟨b, h, .refl b, le_refl _⟩
  | append_singleton rest c ih =>
    rw [← List.append_assoc] at hmore ⊢
    obtain ⟨b', hb', hgrows, hle⟩ := ih ((List.prefix_append _ [c]).trans hmore)
    have hlevel : b'.finality ≠ .tentative := by
      intro htentative
      have hlow := hgrows.le
      rw [htentative] at hlow
      exact hb (le_antisymm hlow (BlockFinality.tentative_le _))
    obtain ⟨b'', hb'', hgrows'⟩ := grows_step (hkeeps _ c hmore) hb' hlevel
    rw [run_concat]
    refine ⟨b'', hb'', hgrows.trans hgrows', hle.trans ?_⟩
    refine max_le_max hgrows'.le ?_
    rw [hgrows'.hash]
    exact tally_mono c b'.hash

/-- After a finalization the block has the level that was returned. -/
theorem block_of_finalize {level : BlockFinality}
    (h : ((run vs done).finalize height).1 = .ok level) :
    ∃ b, ((run vs (done ++ [.finalize height])).entry height).block = some b ∧
      b.finality = level := by
  cases hblock : ((run vs done).entry height).block with
  | none =>
    rw [finalize_eq, hblock] at h
    cases h
  | some b =>
    rw [finalize_of_block hblock] at h
    rw [run_concat, entry_block_step]
    simp only [if_true, hblock, Option.map_some]
    exact ⟨_, rfl, Except.ok.inj h⟩

/-- A block above the lowest level has got there by a finalization. -/
theorem finalize_of_level (h : ((run vs l).entry height).block = some b)
    (hb : b.finality ≠ .tentative) : ∃ done, done ++ [.finalize height] <+: l ∧
      ((run vs done).finalize height).1 = .ok b.finality := by
  induction l using List.reverseRecOn generalizing b with
  | nil => cases h
  | append_singleton l c ih =>
    have hkept : ((run vs l).entry height).block = some b →
        ∃ done, done ++ [.finalize height] <+: l ++ [c] ∧
          ((run vs done).finalize height).1 = .ok b.finality := by
      intro hold
      obtain ⟨done, hdone, hlevel⟩ := ih hold hb
      exact ⟨done, hdone.trans (List.prefix_append _ _), hlevel⟩
    rw [run_concat, entry_block_step] at h
    cases c with
    | vote v => exact hkept h
    | propose p =>
      dsimp only at h
      split_ifs at h
      · cases h
        exact absurd rfl hb
      · exact hkept h
    | finalize height' =>
      dsimp only at h
      split_ifs at h with hheight
      · obtain ⟨old, hold, rfl⟩ := Option.map_eq_some_iff.mp h
        subst hheight
        exact ⟨l, List.prefix_rfl, finalize_of_block hold⟩
      · exact hkept h

/-! ## Main theorem -/

/-- In a run, finality never regresses exactly if no accepted proposal comes to a height where a
block has been confirmed or committed. -/
theorem never_regresses_iff (vs : ValidatorSet) (l : List Call) :
    NeverRegresses vs l ↔ ∀ done c, done ++ [c] <+: l → (run vs done).Keeps c := by
  constructor
  · rintro hnever done c hdone p rfl haccepts old hold
    by_contra hlevel
    rw [block_eq_ok] at hold
    obtain ⟨before, hbefore, hreturned⟩ := finalize_of_level hold hlevel
    -- An accepted proposal sets the block at its height back to tentative.
    have hreset : ((run vs (done ++ [.propose p])).entry p.height).block =
        some { p with finality := .tentative } := by
      rw [run_concat, entry_block_step]
      exact if_pos ⟨haccepts, rfl⟩
    have hnext : done <+: done ++ [.propose p] := List.prefix_append _ _
    obtain ⟨old', hold', hfinal⟩ := block_of_finalize hreturned
    cases hfinality : old.finality with
    | tentative => exact hlevel hfinality
    | confirmed =>
      rw [hfinality] at hreturned hfinal
      obtain ⟨b, b', hb, hb', hle, -⟩ := hnever.confirmed before _ _ p.height List.prefix_rfl
        (hbefore.trans hnext) hdone hreturned
      rw [block_eq_ok] at hb hb'
      cases hold'.symm.trans hb
      cases hreset.symm.trans hb'
      have hdrop : BlockFinality.confirmed ≤ .tentative := hfinal ▸ hle
      exact absurd hdrop (by decide)
    | committed =>
      rw [hfinality] at hreturned hfinal
      obtain ⟨b, -, hb, hb', -⟩ := hnever.committed before _ p.height (hbefore.trans hnext) hdone
        hreturned
      rw [block_eq_ok] at hb'
      cases hreset.symm.trans hb'
      cases hb
  · intro hkeeps
    constructor
    · intro done more height hdone hmore hreturned
      obtain ⟨b, hb, hfinal⟩ := block_of_finalize hreturned
      obtain ⟨b', hb', hgrows, -⟩ := grows_run hkeeps hdone hmore hb (by rw [hfinal]; decide)
      obtain rfl := hgrows.eq_of_committed hfinal
      refine ⟨b', block_eq_ok.mpr hb, hfinal, block_eq_ok.mpr hb', ?_⟩
      rw [finalize_of_block hb', raised, hfinal]
      exact congrArg Except.ok (max_eq_left (BlockFinality.le_committed _))
    · intro done more more' height hdone hmore hmore' hreturned
      obtain ⟨b, hb, hfinal⟩ := block_of_finalize hreturned
      obtain ⟨b', hb', hgrows, -⟩ :=
        grows_run hkeeps hdone (hmore.trans hmore') hb (by rw [hfinal]; decide)
      have hlevel : b'.finality ≠ .tentative := by
        intro htentative
        have hlow := hgrows.le
        rw [htentative, hfinal] at hlow
        exact absurd hlow (by decide)
      obtain ⟨b'', hb'', hgrows', hle⟩ := grows_run hkeeps hmore hmore' hb' hlevel
      exact ⟨b', b'', block_eq_ok.mpr hb', block_eq_ok.mpr hb'', hgrows'.le, _, _,
        finalize_of_block hb', finalize_of_block hb'', hle⟩

end Finality

namespace Demo

attribute [local instance] plainEd25519

/-- The leader of the first height proposes once more after the commit. -/
def again : List Call :=
  precommitted (block [transfer 1]) [1, 2, 3] ++ [.finalize 0, .propose (block [transfer 2])]

/-- The committed block is replaced by one that is not. -/
theorem proposed_again : ¬ ∀ (vs : ValidatorSet) (l : List Call), NeverRegresses vs l := by
  intro h
  obtain ⟨b, -, hfinal, hb, -⟩ := (h four again).committed
    (precommitted (block [transfer 1]) [1, 2, 3]) again 0
    ⟨[.propose (block [transfer 2])], rfl⟩ List.prefix_rfl (by decide +kernel)
  have hblock : (run four again).block 0 = .ok (block [transfer 2]) := by decide +kernel
  cases hblock.symm.trans hb
  cases hfinal

end Demo

end P2P333.Consensus333
