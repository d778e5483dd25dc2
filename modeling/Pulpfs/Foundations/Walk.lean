import Mathlib.Data.Finset.Card
import Mathlib.Data.List.Nodup
import Mathlib.Data.Finset.Dedup

/-! Walks along a partial successor function. A walk that ends does so before it could
visit a node twice, so a bound on the nodes it can enter is a bound on its length. -/
namespace Walk

variable {α : Type*}

/-- The walk from `x` stops after exactly `n` moves. -/
inductive EndsIn (next : α → Option α) : ℕ → α → Prop
  | stop {x : α} : next x = none → EndsIn next 0 x
  | move {n : ℕ} {x y : α} : next x = some y → EndsIn next n y → EndsIn next (n + 1) x

variable {next : α → Option α}

theorem EndsIn.unique {n m : ℕ} {x : α} (hn : EndsIn next n x) (hm : EndsIn next m x) :
    n = m := by
  induction hn generalizing m with
  | stop hx =>
    cases hm with
    | stop => rfl
    | move hy _ =>
      rw [hx] at hy
      contradiction
  | move hx _ ih =>
    cases hm with
    | stop hy =>
      rw [hx] at hy
      contradiction
    | move hy hz =>
      obtain rfl := Option.some.inj (hx.symm.trans hy)
      rw [ih hz]

/-- The nodes a finite walk enters, each of which it enters once. -/
theorem EndsIn.entered {n : ℕ} {x : α} (h : EndsIn next n x) :
    ∃ l : List α, l.length = n ∧ l.Nodup ∧
      ∀ y ∈ l, (∃ z, next z = some y) ∧ ∃ m < n, EndsIn next m y := by
  induction h with
  | stop => exact ⟨[], rfl, List.nodup_nil, by simp⟩
  | @move n x y hx hy ih =>
    obtain ⟨l, hlen, hnd, hl⟩ := ih
    refine ⟨y :: l, by simp [hlen], List.nodup_cons.mpr ⟨?_, hnd⟩, ?_⟩
    · intro hmem
      obtain ⟨_, m, hm, he⟩ := hl y hmem
      exact absurd (he.unique hy) hm.ne
    · intro z hz
      rcases List.mem_cons.mp hz with rfl | hz
      · exact ⟨⟨x, hx⟩, n, n.lt_succ_self, hy⟩
      · obtain ⟨hs, m, hm, he⟩ := hl z hz
        exact ⟨hs, m, hm.trans n.lt_succ_self, he⟩

/-- A walk that can only enter the listed nodes makes at most that many moves. -/
theorem EndsIn.le_length {n : ℕ} {x : α} (h : EndsIn next n x) (s : List α)
    (hs : ∀ y z, next y = some z → z ∈ s) : n ≤ s.length := by
  obtain ⟨l, hlen, hnd, hl⟩ := h.entered
  rw [← hlen]
  refine (hnd.subperm fun y hy => ?_).length_le
  obtain ⟨⟨z, hz⟩, _⟩ := hl y hy
  exact hs z y hz

end Walk
