import Mathlib.Data.String.Basic

/-! Tree maps seen through a part of their values: which changes of a map the view does not show. -/

namespace Fcvm.Library

open Std (ExtTreeMap)

variable {K V W : Type} [Ord K] [Std.TransOrd K]

def view (v : V → W) (m : ExtTreeMap K V) : ExtTreeMap K W := m.map fun _ x => v x

variable {v : V → W} {m : ExtTreeMap K V} {k : K}

theorem mem_view {n : K} : n ∈ view v m ↔ n ∈ m := ExtTreeMap.mem_map

theorem toList_view : (view v m).toList = m.toList.map fun e => (e.1, v e.2) := ExtTreeMap.toList_map

variable [Std.LawfulEqOrd K]

theorem getElem?_view (n : K) : (view v m)[n]? = m[n]?.map v := ExtTreeMap.getElem?_map

theorem view_modify {g : V → V} (h : ∀ x, v (g x) = v x) : view v (m.modify k g) = view v m := by
  apply ExtTreeMap.ext_getElem?
  intro n
  rw [getElem?_view, getElem?_view, ExtTreeMap.getElem?_modify]
  split
  · next hk =>
    obtain rfl := Std.LawfulEqCmp.eq_of_compare hk
    cases m[k]? <;> simp [h]
  · rfl

theorem view_insert {x y : V} (hx : m[k]? = some x) (h : v y = v x) : view v (m.insert k y) = view v m := by
  apply ExtTreeMap.ext_getElem?
  intro n
  rw [getElem?_view, getElem?_view, ExtTreeMap.getElem?_insert]
  split
  · next hk =>
    obtain rfl := Std.LawfulEqCmp.eq_of_compare hk
    simp [hx, h]
  · rfl

theorem view_map {g : K → V → V} (h : ∀ n x, v (g n x) = v x) : view v (m.map g) = view v m := by
  apply ExtTreeMap.ext_getElem?
  intro n
  rw [getElem?_view, getElem?_view, ExtTreeMap.getElem?_map]
  cases m[n]? <;> simp [h]

end Fcvm.Library
