import Mathlib.Logic.Function.Basic
import Mathlib.Data.Set.Card
import Std.Data.ExtTreeMap

/-! Ordered maps of the standard library read as functions: each operation is an update of
the lookup function, and a map is rebuilt from the list of its entries. -/
namespace TreeMap
open Function Std

variable {α β γ : Type*} {cmp : α → α → Ordering} [TransCmp cmp] [LawfulEqCmp cmp]
  [DecidableEq α]

theorem get_insert (m : ExtTreeMap α β cmp) (k : α) (v : β) :
    (fun l => (m.insert k v)[l]?) = update (fun l => m[l]?) k (some v) := by
  funext l
  by_cases hl : l = k
  · subst hl
    simp
  · simp [ExtTreeMap.getElem?_insert, hl, Ne.symm hl]

theorem get_erase (m : ExtTreeMap α β cmp) (k : α) :
    (fun l => (m.erase k)[l]?) = update (fun l => m[l]?) k none := by
  funext l
  by_cases hl : l = k
  · subst hl
    simp
  · simp [ExtTreeMap.getElem?_erase, hl, Ne.symm hl]

theorem insert_comm (m : ExtTreeMap α β cmp) {k l : α} (h : k ≠ l) (v w : β) :
    (m.insert k v).insert l w = (m.insert l w).insert k v := by
  apply ExtTreeMap.ext_getElem?
  intro x
  rw [congrFun (get_insert _ l w) x, congrFun (get_insert _ k v) x, get_insert, get_insert,
    update_comm h]

theorem insert_insert (m : ExtTreeMap α β cmp) (k : α) (v w : β) :
    (m.insert k v).insert k w = m.insert k w := by
  apply ExtTreeMap.ext_getElem?
  intro x
  rw [congrFun (get_insert _ k w) x, congrFun (get_insert _ k w) x, get_insert, update_idem]

theorem erase_insert_comm (m : ExtTreeMap α β cmp) {k l : α} (h : k ≠ l) (v : β) :
    (m.insert k v).erase l = (m.erase l).insert k v := by
  apply ExtTreeMap.ext_getElem?
  intro x
  rw [congrFun (get_erase _ l) x, congrFun (get_insert _ k v) x, get_insert, get_erase,
    update_comm h]

theorem insert_of_some {m : ExtTreeMap α β cmp} {k : α} {v : β} (h : m[k]? = some v) :
    m.insert k v = m := by
  apply ExtTreeMap.ext_getElem?
  intro x
  rw [congrFun (get_insert m k v) x, ← h, update_eq_self]

omit [DecidableEq α] in
theorem insertIfNew_of_ne (m : ExtTreeMap α β cmp) {k l : α} (v : β) (h : l ≠ k) :
    (m.insertIfNew k v)[l]? = m[l]? := by
  rw [ExtTreeMap.getElem?_insertIfNew, if_neg]
  simp [Ne.symm h]

theorem get_insertIfNew {m : ExtTreeMap α β cmp} {k : α} (v : β) (h : m[k]? = none) :
    (fun l => (m.insertIfNew k v)[l]?) = update (fun l => m[l]?) k (some v) := by
  have hk : k ∉ m := by
    rw [ExtTreeMap.mem_iff_isSome_getElem?, h]
    simp
  funext l
  by_cases hl : l = k
  · subst hl
    rw [ExtTreeMap.getElem?_insertIfNew, if_pos ⟨by simp, hk⟩, update_self]
  · rw [insertIfNew_of_ne m v hl, update_of_ne hl]

omit [DecidableEq α] in
theorem insertIfNew_of_some {m : ExtTreeMap α β cmp} {k : α} {w : β} (v : β)
    (h : m[k]? = some w) : m.insertIfNew k v = m := by
  have hk : k ∈ m := by
    rw [ExtTreeMap.mem_iff_isSome_getElem?, h]
    simp
  apply ExtTreeMap.ext_getElem?
  intro l
  rw [ExtTreeMap.getElem?_insertIfNew, if_neg fun hl => hl.2 hk]

theorem get_modify (m : ExtTreeMap α β cmp) (k : α) (f : β → β) :
    (fun l => (m.modify k f)[l]?) = update (fun l => m[l]?) k (m[k]?.map f) := by
  funext l
  by_cases hl : l = k
  · subst hl
    simp
  · simp [ExtTreeMap.getElem?_modify, hl, Ne.symm hl]

theorem modify_of_some {m : ExtTreeMap α β cmp} {k : α} {v : β} (f : β → β)
    (h : m[k]? = some v) : m.modify k f = m.insert k (f v) := by
  apply ExtTreeMap.ext_getElem?
  intro x
  rw [congrFun (get_modify m k f) x, congrFun (get_insert m k (f v)) x, h, Option.map_some]

section Map

variable (m : ExtTreeMap α β cmp) (k : α) (f : β → γ)

theorem map_insert (v : β) :
    (m.insert k v).map (fun _ => f) = (m.map fun _ => f).insert k (f v) := by
  apply ExtTreeMap.ext_getElem?
  intro l
  rw [ExtTreeMap.getElem?_map, congrFun (get_insert m k v) l,
    congrFun (get_insert (m.map fun _ => f) k (f v)) l]
  by_cases hl : l = k
  · rw [hl, update_self, update_self, Option.map_some]
  · rw [update_of_ne hl, update_of_ne hl, ExtTreeMap.getElem?_map]

theorem map_erase : (m.erase k).map (fun _ => f) = (m.map fun _ => f).erase k := by
  apply ExtTreeMap.ext_getElem?
  intro l
  rw [ExtTreeMap.getElem?_map, congrFun (get_erase m k) l,
    congrFun (get_erase (m.map fun _ => f) k) l]
  by_cases hl : l = k
  · rw [hl, update_self, update_self, Option.map_none]
  · rw [update_of_ne hl, update_of_ne hl, ExtTreeMap.getElem?_map]

theorem map_insertIfNew (v : β) :
    (m.insertIfNew k v).map (fun _ => f) = (m.map fun _ => f).insertIfNew k (f v) := by
  cases hm : m[k]? with
  | some w =>
    have hmap : (m.map fun _ => f)[k]? = some (f w) := by
      rw [ExtTreeMap.getElem?_map, hm, Option.map_some]
    rw [insertIfNew_of_some v hm, insertIfNew_of_some (f v) hmap]
  | none =>
    have hmap : (m.map fun _ => f)[k]? = none := by
      rw [ExtTreeMap.getElem?_map, hm, Option.map_none]
    apply ExtTreeMap.ext_getElem?
    intro l
    rw [ExtTreeMap.getElem?_map, congrFun (get_insertIfNew v hm) l,
      congrFun (get_insertIfNew (f v) hmap) l]
    by_cases hl : l = k
    · rw [hl, update_self, update_self, Option.map_some]
    · rw [update_of_ne hl, update_of_ne hl, ExtTreeMap.getElem?_map]

theorem map_modify {g : β → β} {g' : γ → γ} (h : ∀ v, f (g v) = g' (f v)) :
    (m.modify k g).map (fun _ => f) = (m.map fun _ => f).modify k g' := by
  apply ExtTreeMap.ext_getElem?
  intro l
  rw [ExtTreeMap.getElem?_map, congrFun (get_modify m k g) l,
    congrFun (get_modify (m.map fun _ => f) k g') l]
  by_cases hl : l = k
  · rw [hl, update_self, update_self, ExtTreeMap.getElem?_map, Option.map_map, Option.map_map]
    exact congrArg (fun x => Option.map x m[k]?) (funext h)
  · rw [update_of_ne hl, update_of_ne hl, ExtTreeMap.getElem?_map]

end Map

/-- Entering a list in order into a map: an entry shows unless its key was there before. -/
theorem getElem?_foldl_insertIfNew (l : List (α × β)) (m : ExtTreeMap α β cmp) (k : α) :
    (l.foldl (fun m e => m.insertIfNew e.1 e.2) m)[k]? =
      m[k]?.or ((l.find? fun e => e.1 = k).map Prod.snd) := by
  induction l generalizing m with
  | nil => simp
  | cons e l ih =>
    rw [List.foldl_cons, ih]
    cases hm : m[e.1]? with
    | none =>
      have hg := congrFun (get_insertIfNew (m := m) e.2 hm) k
      by_cases hk : e.1 = k
      · subst hk
        simp only [update_self] at hg
        rw [hg, hm]
        simp
      · simp only [update_of_ne (Ne.symm hk)] at hg
        rw [hg, List.find?_cons_of_neg (by simpa using hk)]
    | some w =>
      rw [insertIfNew_of_some e.2 hm]
      by_cases hk : e.1 = k
      · subst hk
        rw [hm]
        simp
      · rw [List.find?_cons_of_neg (by simpa using hk)]

/-- What a list entered into a map leaves there was in the list. -/
theorem mem_of_getElem?_foldl_insertIfNew {ε : Type*} (key : ε → α) (value : ε → β) {l : List ε}
    {k : α} {v : β}
    (h : (l.foldl (fun m e => m.insertIfNew (key e) (value e)) (∅ : ExtTreeMap α β cmp))[k]? =
      some v) : ∃ e ∈ l, key e = k ∧ value e = v := by
  have hmap := getElem?_foldl_insertIfNew (l.map fun e => (key e, value e))
    (∅ : ExtTreeMap α β cmp) k
  rw [List.foldl_map, h, ExtTreeMap.getElem?_empty, Option.none_or] at hmap
  obtain ⟨e, he, hv⟩ := Option.map_eq_some_iff.mp hmap.symm
  obtain ⟨x, hx, rfl⟩ := List.mem_map.mp (List.mem_of_find?_eq_some he)
  exact ⟨x, hx, by simpa using List.find?_some he, hv⟩

/-- A map is what its entries rebuild. -/
theorem foldl_insertIfNew_toList (m : ExtTreeMap α β cmp) :
    m.toList.foldl (fun m e => m.insertIfNew e.1 e.2) (∅ : ExtTreeMap α β cmp) = m := by
  apply ExtTreeMap.ext_getElem?
  intro k
  rw [getElem?_foldl_insertIfNew]
  simp only [ExtTreeMap.getElem?_empty, Option.none_or]
  cases hm : m[k]? with
  | none =>
    rw [Option.map_eq_none_iff, List.find?_eq_none]
    intro e he
    have he := ExtTreeMap.mem_toList_iff_getElem?_eq_some.mp (by simpa using he)
    simp only [decide_eq_true_eq]
    intro hk
    rw [hk, hm] at he
    contradiction
  | some v =>
    have hmem : (k, v) ∈ m.toList := ExtTreeMap.mem_toList_iff_getElem?_eq_some.mpr hm
    cases hf : m.toList.find? fun e => decide (e.1 = k) with
    | none =>
      have hn := List.find?_eq_none.mp hf _ hmem
      simp at hn
    | some e =>
      have hek := List.find?_some hf
      have he := ExtTreeMap.mem_toList_iff_getElem?_eq_some.mp
        (show (e.1, e.2) ∈ m.toList from List.mem_of_find?_eq_some hf)
      simp only [decide_eq_true_eq] at hek
      rw [hek, hm] at he
      rw [Option.map_some, ← he]

/-- The keys of the entries that pass a test, counted. -/
theorem ncard_keys (m : ExtTreeMap α β cmp) (p : α × β → Bool) :
    {k | ∃ v, m[k]? = some v ∧ p (k, v) = true}.ncard = (m.toList.filter p).length := by
  have hnodup : ((m.toList.filter p).map Prod.fst).Nodup := by
    refine List.Nodup.sublist (List.filter_sublist.map _) ?_
    rw [ExtTreeMap.map_fst_toList_eq_keys]
    exact ExtTreeMap.nodup_keys
  rw [← List.length_map Prod.fst, ← List.toFinset_card_of_nodup hnodup,
    ← Set.ncard_coe_finset]
  congr 1
  ext k
  simp only [Set.mem_ofPred_eq, List.coe_toFinset, List.mem_map, List.mem_filter, Prod.exists,
    exists_and_right, exists_eq_right, ExtTreeMap.mem_toList_iff_getElem?_eq_some]

end TreeMap
