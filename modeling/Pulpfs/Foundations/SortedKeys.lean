import Mathlib.Data.List.Destutter
import Std.Data.ExtTreeMap

/-! Sorting a list and then dropping what repeats its predecessor leaves each element once, in
strict order. A list kept in strict order can be read in pieces while it changes. -/
namespace SortedKeys
open Std

variable {α : Type*} [DecidableEq α]

theorem mem_destutter'_ne {a x : α} {l : List α} :
    x ∈ List.destutter' (· ≠ ·) a l ↔ x = a ∨ x ∈ l := by
  induction l generalizing a with
  | nil => simp
  | cons b l ih =>
    rw [List.destutter'_cons]
    by_cases hab : a = b
    · rw [if_neg (not_not.mpr hab), ih, List.mem_cons, hab, or_self_left]
    · rw [if_pos hab, List.mem_cons, List.mem_cons, ih]

theorem mem_destutter_ne {x : α} {l : List α} : x ∈ l.destutter (· ≠ ·) ↔ x ∈ l := by
  cases l with
  | nil => rfl
  | cons a l => rw [List.destutter_cons', mem_destutter'_ne, List.mem_cons]

variable (cmp : α → α → Ordering) [TransCmp cmp] [LawfulEqCmp cmp]

omit [DecidableEq α] [LawfulEqCmp cmp] in
theorem pairwise_mergeSort_isLE (l : List α) :
    (l.mergeSort fun a b => (cmp a b).isLE).Pairwise fun a b => (cmp a b).isLE = true := by
  refine List.pairwise_mergeSort ?_ ?_ l
  · exact fun a b c hab hbc => TransCmp.isLE_trans hab hbc
  · intro a b
    have hswap : cmp b a = (cmp a b).swap := OrientedCmp.eq_swap
    rw [hswap]
    cases cmp a b with
    | lt => rfl
    | eq => rfl
    | gt => rfl

theorem pairwise_sortedKeys (l : List α) :
    ((l.mergeSort fun a b => (cmp a b).isLE).destutter (· ≠ ·)).Pairwise
      fun a b => cmp a b = .lt := by
  have hle := (pairwise_mergeSort_isLE cmp l).sublist (List.destutter_sublist (· ≠ ·) _)
  have hne := List.isChain_destutter (· ≠ ·) (l.mergeSort fun a b => (cmp a b).isLE)
  have htrans : IsTrans α fun a b => cmp a b = .lt := ⟨fun _ _ _ => TransCmp.lt_trans⟩
  rw [← List.isChain_iff_pairwise, List.isChain_iff_getElem]
  rw [List.isChain_iff_getElem] at hne
  intro i hi
  have hle := List.pairwise_iff_getElem.mp hle i (i + 1) (by omega) hi i.lt_succ_self
  cases hc : cmp _ _ with
  | lt => rfl
  | eq => exact absurd (LawfulEqCmp.eq_of_compare hc) (hne i hi)
  | gt =>
    rw [hc] at hle
    contradiction

section Pages

omit [DecidableEq α]

variable {cmp} {items read page : List α} {j : ℕ} {stays : α → Prop}

/-- Where the reading of `items` goes on behind what was read: what comes before sorts at or
before the last element read, the rest after it. -/
def Resumes (cmp : α → α → Ordering) (items read : List α) (j : ℕ) : Prop :=
  ∀ last ∈ read.getLast?, (∀ x ∈ items.take j, (cmp x last).isLE = true) ∧
    ∀ x ∈ items.drop j, cmp last x = .lt

omit [LawfulEqCmp cmp] in
/-- Of the elements that stay, those up to the last one read have been read. -/
theorem mem_of_le_last_page (hitems : items.Pairwise fun a b => cmp a b = .lt)
    (hpage : page <+: items.drop j) {x last : α} (hx : x ∈ items.drop j)
    (hlast : last ∈ page.getLast?) (hle : (cmp x last).isLE = true) : x ∈ page := by
  obtain ⟨rest, hrest⟩ := hpage
  have hsorted := hitems.sublist (List.drop_sublist j items)
  rw [← hrest] at hx hsorted
  rcases List.mem_append.mp hx with hx | hx
  · exact hx
  · have hlt := (List.pairwise_append.mp hsorted).2.2 last (List.mem_of_mem_getLast? hlast) x hx
    have hswap : cmp x last = (cmp last x).swap := OrientedCmp.eq_swap
    rw [hswap, hlt] at hle
    contradiction

omit [LawfulEqCmp cmp] in
theorem sorted_append_page (hread : read.Pairwise fun a b => cmp a b = .lt)
    (hitems : items.Pairwise fun a b => cmp a b = .lt) (hresumes : Resumes cmp items read j)
    (hpage : page <+: items.drop j) : (read ++ page).Pairwise fun a b => cmp a b = .lt := by
  refine List.pairwise_append.mpr
    ⟨hread, (hitems.sublist (List.drop_sublist j items)).sublist hpage.sublist, ?_⟩
  intro a ha b hb
  cases hlast : read.getLast? with
  | none =>
    rw [List.getLast?_eq_none_iff.mp hlast] at ha
    contradiction
  | some last =>
    have hb := (hresumes last hlast).2 b (hpage.subset hb)
    obtain ⟨front, rfl⟩ := List.getLast?_eq_some_iff.mp hlast
    rcases List.mem_append.mp ha with ha | ha
    · have hal := (List.pairwise_append.mp hread).2.2 a ha last (List.mem_singleton_self last)
      exact TransCmp.lt_trans hal hb
    · rw [List.mem_singleton.mp ha]
      exact hb

omit [TransCmp cmp] [LawfulEqCmp cmp] in
/-- What stays and comes before the place where the reading goes on has been read. -/
theorem mem_of_mem_take (hresumes : Resumes cmp items read j) (hstart : read = [] → j = 0)
    (hbelow : ∀ x, stays x → ∀ last ∈ read.getLast?, (cmp x last).isLE = true → x ∈ read)
    {x : α} (hx : stays x) (hmem : x ∈ items.take j) : x ∈ read := by
  cases hl : read.getLast? with
  | none =>
    rw [hstart (List.getLast?_eq_none_iff.mp hl)] at hmem
    contradiction
  | some l => exact hbelow x hx l hl ((hresumes l hl).1 x hmem)

omit [LawfulEqCmp cmp] in
/-- A page keeps it so that what stays and sorts up to the last element read has been read. -/
theorem mem_append_page (hitems : items.Pairwise fun a b => cmp a b = .lt)
    (hstays : ∀ x, stays x → x ∈ items) (hresumes : Resumes cmp items read j)
    (hstart : read = [] → j = 0)
    (hbelow : ∀ x, stays x → ∀ last ∈ read.getLast?, (cmp x last).isLE = true → x ∈ read)
    (hpage : page <+: items.drop j) {x last : α} (hx : stays x)
    (hlast : last ∈ (read ++ page).getLast?) (hle : (cmp x last).isLE = true) :
    x ∈ read ++ page := by
  have hmem := hstays x hx
  rw [← List.take_append_drop j items] at hmem
  rcases List.mem_append.mp hmem with hmem | hmem
  · exact List.mem_append_left _ (mem_of_mem_take hresumes hstart hbelow hx hmem)
  · cases page with
    | nil =>
      rw [List.append_nil] at hlast ⊢
      exact hbelow x hx last hlast hle
    | cons y page =>
      rw [List.getLast?_append_of_ne_nil _ (List.cons_ne_nil y page)] at hlast
      exact List.mem_append_right _ (mem_of_le_last_page hitems hpage hmem hlast hle)

omit [TransCmp cmp] [LawfulEqCmp cmp] in
/-- Where nothing is left to read, all that stays has been read. -/
theorem mem_of_drop_nil (hstays : ∀ x, stays x → x ∈ items) (hresumes : Resumes cmp items read j)
    (hstart : read = [] → j = 0)
    (hbelow : ∀ x, stays x → ∀ last ∈ read.getLast?, (cmp x last).isLE = true → x ∈ read)
    (hend : items.drop j = []) {x : α} (hx : stays x) : x ∈ read := by
  have hmem := hstays x hx
  rw [← List.take_append_drop j items, hend, List.append_nil] at hmem
  exact mem_of_mem_take hresumes hstart hbelow hx hmem

end Pages

end SortedKeys
