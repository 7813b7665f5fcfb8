import Mathlib.Data.List.Perm.Basic
import Mathlib.Data.List.Pairwise
import Lindenmayer.Word

/-! Tables that are built entry by entry. -/
namespace Lindenmayer.Keyed
variable {α : Type} {key : Word} {value : α} {t : Keyed α}

theorem insert_perm (key : Word) (value : α) (t : Keyed α) :
    (t.insert key value).Perm ((key, value) :: t) := by
  induction t with
  | nil => exact .refl _
  | cons d t ih =>
    unfold Keyed.insert
    split
    · exact (ih.cons d).trans (.swap _ _ t)
    · exact .refl _

theorem mem_insert {e : Word × α} : e ∈ t.insert key value ↔ e = (key, value) ∨ e ∈ t :=
  (insert_perm key value t).mem_iff.trans List.mem_cons

theorem contains_insert (key : Word) (value : α) (t : Keyed α) (k : Word) :
    (t.insert key value).contains k = (key == k || t.contains k) :=
  (insert_perm key value t).any_eq

/-- A new key is put where it keeps the keys ascending. -/
theorem pairwise_insert (h : t.Pairwise fun e e' => e.1 < e'.1) (hc : t.contains key = false)
    (value : α) : (t.insert key value).Pairwise fun e e' => e.1 < e'.1 := by
  induction t with
  | nil => exact List.pairwise_singleton _ _
  | cons d t ih =>
    obtain ⟨hd, ht⟩ := List.pairwise_cons.mp h
    obtain ⟨hne, hc⟩ := Bool.or_eq_false_iff.mp hc
    unfold Keyed.insert
    split
    · rename_i hlt
      refine List.pairwise_cons.mpr ⟨fun e he => ?_, ih ht hc⟩
      rcases mem_insert.mp he with rfl | he
      · exact hlt
      · exact hd e he
    · rename_i hle
      have hlt : key < d.1 := (List.le_iff_lt_or_eq.mp (List.not_lt.mp hle)).resolve_right
        (Ne.symm (beq_eq_false_iff_ne.mp hne))
      exact List.pairwise_cons.mpr
        ⟨List.forall_mem_cons.mpr ⟨hlt, fun e he => List.lt_trans hlt (hd e he)⟩, h⟩

/-- Ascending keys are distinct. -/
theorem keys_nodup (h : t.Pairwise fun e e' => e.1 < e'.1) : (t.map (·.1)).Nodup := by
  rw [List.Nodup, List.pairwise_map]
  refine h.imp ?_
  intro d e hlt heq
  exact List.lt_irrefl e.1 (heq ▸ hlt)

end Lindenmayer.Keyed
