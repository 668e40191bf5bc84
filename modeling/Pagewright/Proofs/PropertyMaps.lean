import Pagewright.Proofs.Cascade

/-!
# Merging property maps

A map is known by its keys in order and by the value of each (`PropertyMap.ext_of_keys`). Merging
keeps the keys of the first map where they stand and puts the new ones of the second behind them
(`PropertyMap.keys_merge`), while the values of the second win. So merging is associative, with the
empty map as its unit, and merging a map into itself changes nothing
(`PropertyMap.merge_ordered_override`). -/

namespace Pagewright

open List

namespace PropertyMap

variable {a b : PropertyMap} {es fs : List (String × String)}

/-- The entries that setting keys and merging can make of none. -/
inductive Built : List (String × String) → Prop where
  | empty : Built []
  | insert (key value : String) {es : List (String × String)} (h : Built es) : Built (putEntry key value es)
  | merge {es fs : List (String × String)} (h : Built es) (h' : Built fs) :
      Built (fs.foldl (fun es e => putEntry e.1 e.2 es) es)

theorem Built.nodup (h : Built es) : (es.map Prod.fst).Nodup := by
  induction h with
  | empty => exact nodup_nil
  | insert key value _ ih => exact nodup_putEntry ih
  | merge _ _ ih _ =>
    exact foldlRecOn _ _ (motive := fun es : List (String × String) => (es.map Prod.fst).Nodup) ih fun _ hn _ _ => nodup_putEntry hn

/-! ### Keys and values -/

theorem get?_of_mem {e : String × String} (he : e ∈ a.entries) : a.get? e.1 = some e.2 := by
  obtain ⟨front, back, hs⟩ := append_of_mem he
  have hn := a.nodup
  rw [hs, map_append, map_cons, nodup_append] at hn
  refine lookup_eq_some_iff.2 ⟨front, back, hs, fun p hp => bne_iff_ne.2 ?_⟩
  exact (hn.2.2 p.1 (mem_map_of_mem hp) e.1 mem_cons_self).symm

theorem ext_of_keys (hk : a.keys = b.keys) (hg : ∀ k, a.get? k = b.get? k) : a.entries = b.entries := by
  have hm (m : PropertyMap) : m.keys.map (fun k => (k, (m.get? k).getD "")) = m.entries := by
    rw [keys, map_map]
    refine (map_congr_left fun e he => ?_).trans (map_id _)
    rw [Function.comp_apply, get?_of_mem he, Option.getD_some, id]
  rw [← hm a, ← hm b, hk, funext hg]

theorem keys_merge (a b : PropertyMap) : (a.merge b).keys = a.keys ++ b.keys.filter (· ∉ a.keys) := by
  obtain ⟨es, hn⟩ := b
  change (es.foldl (fun m e => m.insert e.1 e.2) a).keys = a.keys ++ (es.map Prod.fst).filter (· ∉ a.keys)
  induction es generalizing a with
  | nil => rw [foldl_nil, map_nil, filter_nil, append_nil]
  | cons e es ih =>
    obtain ⟨hf, hr⟩ := nodup_cons.1 hn
    have hi : (a.insert e.1 e.2).keys = if e.1 ∈ a.keys then a.keys else a.keys ++ [e.1] := keys_putEntry e.1 e.2 a.entries
    rw [foldl_cons, ih _ hr, hi, map_cons]
    by_cases h : e.1 ∈ a.keys
    · rw [if_pos h, filter_cons_of_neg (by simpa using h)]
    · -- No later key is the one that was put last.
      have hs : (es.map Prod.fst).filter (· ∉ a.keys ++ [e.1]) = (es.map Prod.fst).filter (· ∉ a.keys) := by
        refine filter_congr fun k hk => ?_
        have hne : k ≠ e.1 := fun he => hf (he ▸ hk)
        simp [hne]
      rw [if_neg h, hs, filter_cons_of_pos (by simpa using h), append_assoc, singleton_append]

theorem keys_merge_assoc (a b c : PropertyMap) : ((a.merge b).merge c).keys = (a.merge (b.merge c)).keys := by
  have hc : c.keys.filter (· ∉ a.keys ++ b.keys.filter (· ∉ a.keys)) =
      (c.keys.filter (· ∉ b.keys)).filter (· ∉ a.keys) := by
    rw [filter_filter]
    refine filter_congr fun k _ => ?_
    by_cases h : k ∈ a.keys <;> simp [h]
  rw [keys_merge, keys_merge, keys_merge, keys_merge, hc, filter_append, append_assoc]

/-- **Ordered override.** Whatever setting keys and merging make has no key twice. Merging is
associative, the empty map is its unit, and a map merged into itself stays as it is, all as lists of
entries. A key has the value of the second map, if there is one, else that of the first; the keys of
the first map stay where they are, and the new ones follow in the order of the second. -/
theorem merge_ordered_override :
    (∀ es, Built es → (es.map Prod.fst).Nodup) ∧
      ∀ a b c : PropertyMap,
        ((a.merge b).merge c).entries = (a.merge (b.merge c)).entries ∧
        (empty.merge a).entries = a.entries ∧ (a.merge empty).entries = a.entries ∧
        (a.merge a).entries = a.entries ∧
        (∀ k, (a.merge b).get? k = (b.get? k).or (a.get? k)) ∧
        (a.merge b).keys = a.keys ++ b.keys.filter (· ∉ a.keys) := by
  refine ⟨fun es => Built.nodup, fun a b c => ⟨?_, ?_, rfl, ?_, get?_merge a b, keys_merge a b⟩⟩
  · refine ext_of_keys (keys_merge_assoc a b c) fun k => ?_
    rw [get?_merge, get?_merge, get?_merge, get?_merge, Option.or_assoc]
  · refine ext_of_keys ?_ fun k => ?_
    · rw [keys_merge]
      exact filter_eq_self.2 fun k _ => decide_eq_true (not_mem_nil (a := k))
    · rw [get?_merge]
      exact Option.or_none
  · refine ext_of_keys ?_ fun k => ?_
    · rw [keys_merge, filter_eq_nil_iff.2 fun k hk => by simpa using hk, append_nil]
    · rw [get?_merge, Option.or_self]

end PropertyMap

end Pagewright
