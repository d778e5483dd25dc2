import Pulpfs.Foundations.Overlay
import Mathlib.Data.List.Range

/-! Files as plain lists: windows of a function on positions, what writes do to a list, and a
sparse file read out as a list. -/
namespace Overlay

variable {β γ : Type*}

/-- The values of `g` at the `n` positions from `start` on. -/
def window (g : ℕ → γ) (start n : ℕ) : List γ := (List.range n).map fun i => g (start + i)

@[simp] theorem length_window (g : ℕ → γ) (start n : ℕ) : (window g start n).length = n := by
  rw [window, List.length_map, List.length_range]

@[simp] theorem getElem_window (g : ℕ → γ) (start n i : ℕ) (h : i < (window g start n).length) :
    (window g start n)[i] = g (start + i) := by
  simp only [window, List.getElem_map, List.getElem_range]

theorem window_congr {g g' : ℕ → γ} {start n : ℕ}
    (h : ∀ x, start ≤ x → x < start + n → g x = g' x) : window g start n = window g' start n := by
  refine List.map_congr_left ?_
  intro i hi
  rw [List.mem_range] at hi
  exact h (start + i) (by omega) (by omega)

/-- A window seen through a window. -/
theorem take_drop_window (g : ℕ → γ) (start n off size : ℕ) :
    ((window g start n).drop off).take size = window g (start + off) (min size (n - off)) := by
  apply List.ext_getElem
  · simp only [List.length_take, List.length_drop, length_window]
  · intro i hi hi'
    simp only [List.getElem_take, List.getElem_drop, getElem_window]
    congr 1
    omega

/-- Put `data` in the place of as many values from `off` on. -/
def splice (file : List γ) (off : ℕ) (data : List γ) : List γ :=
  file.take off ++ data ++ file.drop (off + data.length)

/-- A window into a window replaces the values there. -/
theorem splice_window (g h : ℕ → γ) {start n off m : ℕ} (hm : off + m ≤ n) :
    splice (window g start n) off (window h (start + off) m) =
      window (fun x => if start + off ≤ x ∧ x < start + off + m then h x else g x) start n := by
  unfold splice
  apply List.ext_getElem
  · simp only [List.length_append, List.length_take, List.length_drop, length_window]
    omega
  · intro i hi hi'
    rw [length_window] at hi'
    rw [getElem_window]
    by_cases hlo : i < off
    · rw [List.getElem_append_left (by simp; omega), List.getElem_append_left (by simp; omega),
        List.getElem_take, getElem_window, if_neg (by omega)]
    · by_cases hhi : i < off + m
      · rw [List.getElem_append_left (by simp; omega), List.getElem_append_right (by simp; omega),
          getElem_window, if_pos (by omega)]
        congr 1
        simp only [List.length_take, length_window]
        omega
      · rw [List.getElem_append_right (by simp; omega), List.getElem_drop, getElem_window,
          if_neg (by omega)]
        congr 1
        simp only [List.length_append, List.length_take, length_window]
        omega

/-- What `data` written from `off` on leaves of a file: it replaces what was there, and a gap
before it is filled up. Writing nothing changes nothing. -/
def writeAt (zero : γ) (file : List γ) (off : ℕ) (data : List γ) : List γ :=
  if data.isEmpty then file
  else splice (file ++ List.replicate (off + data.length - file.length) zero) off data

namespace SparseFile

variable (value : β → γ) (zero : γ)

/-- What a reader sees at a position. -/
def shown (content : ℕ → Option β) (x : ℕ) : γ := ((content x).map value).getD zero

/-- A patch that does not reach into the window is not seen there. -/
theorem window_overlay_apart (f : ℕ → Option β) {p : Patch β} {start stop : ℕ}
    (hapart : min stop p.stop ≤ max start p.start) :
    window (shown value zero (overlay f p)) start (stop - start) =
      window (shown value zero f) start (stop - start) := by
  refine window_congr ?_
  rintro x hlo hhi
  have hx : ¬ p.Covers x := by
    rintro ⟨hstart, hstop⟩
    omega
  rw [shown, overlay_not_covered hx, shown]

/-- Where a patch reaches into the window, its values are put in the place of those there. -/
theorem splice_overlay (f : ℕ → Option β) {p : Patch β} {start stop : ℕ}
    (hover : max start p.start < min stop p.stop) :
    splice (window (shown value zero f) start (stop - start)) (max start p.start - start)
        (window (fun x => value (p.value x)) (max start p.start)
          (min stop p.stop - max start p.start)) =
      window (shown value zero (overlay f p)) start (stop - start) := by
  obtain ⟨d, hd⟩ := Nat.exists_eq_add_of_le (Nat.le_max_left start p.start)
  rw [hd, Nat.add_sub_cancel_left, splice_window _ _ (by omega)]
  refine window_congr ?_
  intro x hlo hhi
  by_cases hx : p.Covers x
  · have hbounds : p.start ≤ x ∧ x < p.stop := hx
    rw [if_pos (by omega)]
    simp only [shown, overlay_covered hx, Option.map_some, Option.getD_some]
  · have hbounds : ¬ (p.start ≤ x ∧ x < p.stop) := hx
    rw [if_neg (by omega)]
    simp only [shown, overlay_not_covered hx]

/-- The file read out from its start to its size. -/
def bytes (r : SparseFile β) : List γ := window (shown value zero r.content) 0 r.size

/-- No position from the size on stores a value. -/
def Confined (r : SparseFile β) : Prop := ∀ x, r.size ≤ x → r.content x = none

theorem confined_empty : (empty : SparseFile β).Confined := fun _ _ => rfl

theorem Confined.write {r : SparseFile β} (h : r.Confined) (ps : List (Patch β)) :
    (r.write ps).Confined := by
  intro x hx
  have hsize := (le_extent r.size ps).trans hx
  show overlayAll r.content ps x = none
  rw [overlayAll_not_covered]
  · exact h x hsize
  · intro p hp hc
    have hstop := (stop_le_extent (n := r.size) hp).trans hx
    exact absurd hc.2 (by omega)

theorem confined_truncate (r : SparseFile β) (n : ℕ) : (r.truncate n).Confined := by
  intro x hx
  exact if_neg (Nat.not_lt.mpr hx)

theorem length_bytes (r : SparseFile β) : (r.bytes value zero).length = r.size :=
  length_window _ _ _

/-- Only the values of what the file stores are read out. -/
theorem bytes_congr {value value' : β → γ} {zero : γ} {r : SparseFile β}
    (h : ∀ x b, r.content x = some b → value' b = value b) :
    r.bytes value' zero = r.bytes value zero := by
  refine window_congr ?_
  intro x _ _
  unfold shown
  cases hb : r.content x with
  | none => rfl
  | some b => rw [Option.map_some, Option.map_some, h x b hb]

/-- Cutting or extending the file cuts its bytes or fills them up. -/
theorem bytes_truncate {r : SparseFile β} (h : r.Confined) (n : ℕ) :
    (r.truncate n).bytes value zero =
      (r.bytes value zero).take n ++ List.replicate (n - (r.bytes value zero).length) zero := by
  rw [length_bytes]
  apply List.ext_getElem
  · rw [length_bytes, List.length_append, List.length_take, List.length_replicate, length_bytes]
    show n = _
    omega
  · intro i hi hi'
    rw [length_bytes] at hi
    have hn : i < n := hi
    have hcut : shown value zero (cut n r.content) i = shown value zero r.content i := by
      rw [shown, cut, if_pos hn]
      rfl
    have hleft : ((r.truncate n).bytes value zero)[i] = shown value zero (cut n r.content) i := by
      simp only [bytes, getElem_window, Nat.zero_add]
      rfl
    rw [hleft, hcut]
    by_cases hlt : i < r.size
    · rw [List.getElem_append_left (by rw [List.length_take, length_bytes]; omega),
        List.getElem_take]
      simp only [bytes, getElem_window, Nat.zero_add]
    · rw [List.getElem_append_right (by rw [List.length_take, length_bytes]; omega),
        List.getElem_replicate, shown, h i (by omega)]
      rfl

theorem bytes_truncate_zero (r : SparseFile β) : (r.truncate 0).bytes value zero = [] := rfl

/-- Laying a patch over the file is writing its values into the list. -/
theorem bytes_write {r : SparseFile β} (h : r.Confined) {p : Patch β} {data : List γ}
    (hne : data ≠ []) (hstop : p.stop = p.start + data.length)
    (hval : ∀ i (hi : i < data.length), value (p.value (p.start + i)) = data[i]) :
    (r.write [p]).bytes value zero = writeAt zero (r.bytes value zero) p.start data := by
  have hpos : 0 < data.length := List.length_pos_iff.mpr hne
  have hdata : data = window (fun x => value (p.value x)) (0 + p.start) data.length := by
    apply List.ext_getElem
    · rw [length_window]
    · intro i hi hi'
      rw [getElem_window, Nat.zero_add]
      exact (hval i hi).symm
  have hpad : r.bytes value zero ++
      List.replicate (p.start + data.length - (r.bytes value zero).length) zero =
      window (shown value zero r.content) 0 (max r.size p.stop) := by
    apply List.ext_getElem
    · rw [List.length_append, List.length_replicate, length_bytes, length_window, hstop]
      omega
    · intro i hi hi'
      rw [getElem_window]
      by_cases hlt : i < r.size
      · rw [List.getElem_append_left (by rw [length_bytes]; exact hlt)]
        exact getElem_window _ _ _ _ _
      · rw [List.getElem_append_right (by rw [length_bytes]; omega), List.getElem_replicate,
          Nat.zero_add, shown, h i (by omega)]
        rfl
  have hempty : data.isEmpty = false := by
    rw [List.isEmpty_eq_false_iff]
    exact hne
  rw [writeAt, hempty, if_neg Bool.false_ne_true, hpad]
  have hsplice : splice (window (shown value zero r.content) 0 (max r.size p.stop)) p.start
      (window (fun x => value (p.value x)) (0 + p.start) data.length) = _ :=
    splice_window _ _ (by omega)
  rw [← hdata] at hsplice
  rw [hsplice]
  refine window_congr ?_
  intro x _ _
  simp only [Nat.zero_add]
  show shown value zero (overlay r.content p) x = _
  by_cases hx : p.Covers x
  · rw [shown, overlay_covered hx, if_pos (by have := hx.1; have := hx.2; omega)]
    rfl
  · rw [shown, overlay_not_covered hx, if_neg (fun hc => hx ⟨hc.1, by omega⟩)]
    rfl

/-- At every position the patches reach, the file has their value. -/
def Shows (value : β → γ) (r : SparseFile β) (ps : List (Patch γ)) : Prop :=
  ∀ x v, Overlay.content ps x = some v → x < r.size ∧ (r.content x).map value = some v

theorem shows_nil (value : β → γ) (r : SparseFile β) : r.Shows value [] := nofun

theorem Shows.congr {value value' : β → γ} {r : SparseFile β} {ps : List (Patch γ)}
    (h : r.Shows value ps) (hv : ∀ x b, r.content x = some b → value' b = value b) :
    r.Shows value' ps := by
  intro x v hx
  obtain ⟨hlt, hval⟩ := h x v hx
  obtain ⟨b, hb, rfl⟩ := Option.map_eq_some_iff.mp hval
  refine ⟨hlt, ?_⟩
  rw [hb, Option.map_some, hv x b hb]

/-- One more patch laid over both. -/
theorem Shows.write {value : β → γ} {r : SparseFile β} {ps : List (Patch γ)}
    (h : r.Shows value ps) {q : Patch β} {p : Patch γ} (hstart : q.start = p.start)
    (hstop : q.stop = p.stop) (hval : ∀ x, p.Covers x → value (q.value x) = p.value x) :
    (r.write [q]).Shows value (ps ++ [p]) := by
  intro x v hx
  rw [Overlay.content, overlayAll_concat] at hx
  have hcovers : q.Covers x ↔ p.Covers x := by rw [Patch.Covers, Patch.Covers, hstart, hstop]
  show x < extent r.size [q] ∧ (overlay r.content q x).map value = some v
  by_cases hp : p.Covers x
  · rw [overlay_covered hp] at hx
    rw [overlay_covered (hcovers.mpr hp), Option.map_some, hval x hp]
    exact ⟨(hcovers.mpr hp).2.trans_le (stop_le_extent List.mem_cons_self), hx⟩
  · rw [overlay_not_covered hp] at hx
    rw [overlay_not_covered fun hq => hp (hcovers.mp hq)]
    obtain ⟨hlt, hmap⟩ := h x v hx
    exact ⟨hlt.trans_le (le_extent r.size [q]), hmap⟩

/-- What is shown is read where it is asked for. -/
theorem Shows.read {value : β → γ} {r : SparseFile β} {ps : List (Patch γ)}
    (h : r.Shows value ps) (zero : γ) {x off size : ℕ} {v : γ} (hx : Overlay.content ps x = some v)
    (hlo : off ≤ x) (hhi : x < off + size) :
    (((r.bytes value zero).drop off).take size)[x - off]? = some v := by
  obtain ⟨hlt, hval⟩ := h x v hx
  rw [List.getElem?_take_of_lt (by omega), List.getElem?_drop, Nat.add_sub_cancel' hlo,
    List.getElem?_eq_getElem (by rw [length_bytes]; exact hlt)]
  simp only [bytes, getElem_window, Nat.zero_add, shown, hval, Option.getD_some]

end SparseFile

/-- Writing at the end appends. -/
theorem writeAt_length (zero : γ) (file data : List γ) :
    writeAt zero file file.length data = file ++ data := by
  unfold writeAt
  cases data with
  | nil => simp
  | cons a data =>
    rw [List.isEmpty_cons, if_neg Bool.false_ne_true, Nat.add_sub_cancel_left, splice,
      List.take_left', List.drop_eq_nil_of_le, List.append_nil]
    · simp
    · rfl

end Overlay
