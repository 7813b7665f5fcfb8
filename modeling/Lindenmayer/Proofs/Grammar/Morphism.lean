import Mathlib.Data.Matrix.Mul
import Lindenmayer.Proofs.Grammar.Segmentation

/-! Rules whose keys are single symbols. Passes treat each symbol apart from the others, and so they
multiply the numbers of symbols by the growth matrix of the rules. -/
namespace Lindenmayer.Rules
open scoped Matrix

variable {rules : List (Word × Word)}

/-- Rules whose keys are single symbols. -/
def ContextFree (rules : List (Word × Word)) : Prop := ∀ r ∈ rules, r.1.length = 1

/-- What a symbol becomes in a pass: the replacement of the first rule for it, or without a rule the
symbol itself. -/
def image (rules : List (Word × Word)) (c : Char) : Word :=
  ((rules.find? (·.1 == [c])).map (·.2)).getD [c]

theorem ContextFree.exists_key (h : ContextFree rules) {r : Word × Word} (hr : r ∈ rules) :
    ∃ c, r.1 = [c] :=
  List.length_eq_one_iff.mp (h r hr)

/-- A symbol with a rule is the longest key wherever it stands. -/
theorem ContextFree.isLongestKey (h : ContextFree rules) {c : Char} (cs : Word)
    (hc : [c] ∈ rules.map (·.1)) : IsLongestKey rules (c :: cs) [c] where
  mem := hc
  ne_nil := nofun
  begins := ⟨cs, rfl⟩
  length_le r hr _ := Nat.le_of_eq (h r hr)

/-- Without a rule for the symbol that comes next, no key fits. -/
theorem ContextFree.eq_nil_of_prefix (h : ContextFree rules) {c : Char} {cs : Word}
    (hc : [c] ∉ rules.map (·.1)) : ∀ r ∈ rules, r.1 <+: c :: cs → r.1 = [] := by
  intro r hr hp
  obtain ⟨d, hd⟩ := h.exists_key hr
  rw [hd] at hp
  obtain ⟨rfl, -⟩ := List.cons_prefix_cons.mp hp
  exact absurd (hd ▸ List.mem_map_of_mem hr) hc

/-- A pass over a word begins with the image of its first symbol, whatever comes after it. -/
theorem apply_cons (h : ContextFree rules) (c : Char) (cs : Word) :
    (ofList rules).apply (c :: cs) = image rules c ++ (ofList rules).apply cs := by
  cases hf : rules.find? (·.1 == [c]) with
  | none =>
    have hc : [c] ∉ rules.map (·.1) := by
      rintro hm
      obtain ⟨r, hr, hk⟩ := List.mem_map.mp hm
      simpa [hk] using List.find?_eq_none.mp hf r hr
    rw [image, hf, apply_of_no_match (match?_ofList_eq_none_iff.mpr (h.eq_nil_of_prefix hc))]
    rfl
  | some e =>
    have he : e.1 = [c] := beq_iff_eq.mp (List.find?_some (p := fun r : Word × Word => r.1 == [c]) hf)
    have hc : [c] ∈ rules.map (·.1) := he ▸ List.mem_map_of_mem (List.mem_of_find?_eq_some hf)
    have hm : (ofList rules).match? ([c] ++ cs) = some ([c], e.2) :=
      match?_ofList_eq_some_iff.mpr ⟨h.isLongestKey cs hc, by rw [hf, ← he]⟩
    rw [image, hf]
    exact apply_of_match (proper_ofList rules) hm

/-- A pass puts the images of the symbols together. -/
theorem apply_eq_flatMap (h : ContextFree rules) (w : Word) :
    (ofList rules).apply w = w.flatMap (image rules) := by
  induction w with
  | nil => exact apply_nil _
  | cons c cs ih => rw [apply_cons h, ih, List.flatMap_cons]

theorem apply_append (h : ContextFree rules) (u v : Word) :
    (ofList rules).apply (u ++ v) = (ofList rules).apply u ++ (ofList rules).apply v := by
  simp only [apply_eq_flatMap h, List.flatMap_append]

theorem repeat_apply_append (h : ContextFree rules) (n : Nat) (u v : Word) :
    Nat.repeat (ofList rules).apply n (u ++ v) =
      Nat.repeat (ofList rules).apply n u ++ Nat.repeat (ofList rules).apply n v := by
  induction n with
  | zero => rfl
  | succ n ih => simp only [Nat.repeat, ih, apply_append h]

/-- A symbol comes out of a pass as often as the images of all symbols have it. -/
theorem count_apply (h : ContextFree rules) (w : Word) (c : Char) :
    ((ofList rules).apply w).count c = (w.map fun x => (image rules x).count c).sum := by
  rw [apply_eq_flatMap h, List.count_flatMap]
  rfl

variable {symbols : Finset Char} {w : Word}

/-- How often each symbol of a set stands in a word. -/
def counts (symbols : Finset Char) (w : Word) : symbols → ℕ := fun c => w.count c.val

/-- How often each symbol of a set stands in the images of these symbols, an image to a row. -/
def growth (rules : List (Word × Word)) (symbols : Finset Char) : Matrix symbols symbols ℕ :=
  .of fun x => counts symbols (image rules x)

/-- A pass multiplies the numbers of symbols by the growth matrix. -/
theorem counts_apply (h : ContextFree rules) (hw : ∀ c ∈ w, c ∈ symbols) :
    counts symbols ((ofList rules).apply w) = counts symbols w ᵥ* growth rules symbols := by
  funext c
  have hsub : w.toFinset ⊆ symbols := fun x hx => hw x (List.mem_toFinset.mp hx)
  have hzero : ∀ x ∈ symbols, x ∉ w.toFinset → w.count x * (image rules x).count c.val = 0 := by
    intro x _ hx
    rw [List.count_eq_zero.mpr (mt List.mem_toFinset.mpr hx), Nat.zero_mul]
  calc ((ofList rules).apply w).count c.val
    _ = ∑ x ∈ w.toFinset, w.count x * (image rules x).count c.val := by
      rw [count_apply h, Finset.sum_list_map_count]
      rfl
    _ = ∑ x ∈ symbols, w.count x * (image rules x).count c.val :=
      Finset.sum_subset hsub hzero
    _ = ∑ x : symbols, w.count x.val * (image rules x.val).count c.val :=
      (Finset.sum_coe_sort symbols fun x => w.count x * (image rules x).count c.val).symm

theorem forall_mem_repeat_apply (hw : ∀ c ∈ w, c ∈ symbols)
    (hr : ∀ r ∈ rules, ∀ c ∈ r.2, c ∈ symbols) (n : Nat) :
    ∀ c ∈ Nat.repeat (ofList rules).apply n w, c ∈ symbols := by
  induction n with
  | zero => exact hw
  | succ n ih =>
    exact forall_mem_apply (proper_ofList rules) (fun e he => hr e (mem_ofList.mp he).1) ih

theorem counts_repeat_apply (h : ContextFree rules) (hw : ∀ c ∈ w, c ∈ symbols)
    (hr : ∀ r ∈ rules, ∀ c ∈ r.2, c ∈ symbols) (n : Nat) :
    counts symbols (Nat.repeat (ofList rules).apply n w) =
      counts symbols w ᵥ* growth rules symbols ^ n := by
  induction n with
  | zero => rw [pow_zero, Matrix.vecMul_one]; rfl
  | succ n ih =>
    rw [pow_succ, ← Matrix.vecMul_vecMul, ← ih]
    exact counts_apply h (forall_mem_repeat_apply hw hr n)

/-- Where every key is a single symbol, passes are a morphism. So many passes over two words one
after the other are so many passes over each of them. One pass puts the images of the symbols
together, and in these images its symbols are counted. Among any symbols that word and replacements
are made of, so many passes multiply the numbers of symbols by that power of the growth matrix. -/
theorem repeat_apply_contextFree (h : ContextFree rules) (n : Nat) :
    let passes := Nat.repeat (ofList rules).apply
    (∀ u v, passes n (u ++ v) = passes n u ++ passes n v) ∧
    (∀ w, passes 1 w = w.flatMap (image rules)) ∧
    (∀ w c, (passes 1 w).count c = (w.map fun x => (image rules x).count c).sum) ∧
    ∀ (symbols : Finset Char) (w : Word), (∀ c ∈ w, c ∈ symbols) →
      (∀ r ∈ rules, ∀ c ∈ r.2, c ∈ symbols) →
        counts symbols (passes n w) = counts symbols w ᵥ* growth rules symbols ^ n := by
  intro passes
  exact ⟨repeat_apply_append h n, apply_eq_flatMap h, count_apply h,
    fun _ _ hw hr => counts_repeat_apply h hw hr n⟩

/-- A triangle whose sides are counted by the matrix: after two passes 18 of them are of the second
kind. The second rule of a symbol has no say. -/
theorem repeat_apply_triangle :
    let rules : List (Word × Word) :=
      [(['F'], ['F', '-', 'G', '+', 'F', '+', 'G', '-', 'F']), (['G'], ['G', 'G']), (['F'], [])]
    let symbols : Finset Char := {'F', 'G', '+', '-'}
    let w : Word := ['F', '-', 'G', '-', 'G']
    ContextFree rules ∧ (∀ c ∈ w, c ∈ symbols) ∧ (∀ r ∈ rules, ∀ c ∈ r.2, c ∈ symbols) ∧
      (counts symbols w ᵥ* growth rules symbols ^ 2) ⟨'G', by decide⟩ = 18 := by
  intro rules symbols w
  have hc : ContextFree rules := by unfold ContextFree; decide
  have hw : ∀ c ∈ w, c ∈ symbols := by simp [w, symbols]
  have hr : ∀ r ∈ rules, ∀ c ∈ r.2, c ∈ symbols := by simp [rules, symbols]
  have hg := (repeat_apply_contextFree hc 2).2.2.2 symbols w hw hr
  refine ⟨hc, hw, hr, ?_⟩
  rw [← hg]
  decide

end Lindenmayer.Rules
