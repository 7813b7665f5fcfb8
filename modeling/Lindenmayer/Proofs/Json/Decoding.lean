import Mathlib.Data.List.Nodup
import Lindenmayer.Json.Decode
import Lindenmayer.Proofs.Keyed
import Lindenmayer.Proofs.Json.Reading

/-! What is known of a tree that is accepted, and what lists and tables hold of it. -/
namespace Lindenmayer.Json

/-- Items one after the other, whatever their values are. -/
@[induction_eliminator] theorem Items.chain {motive : Items → Prop}
    (closed : ∀ stop, motive (.closed stop))
    (item : ∀ start value rest, motive rest → motive (.item start value rest))
    (stuck : ∀ place next close, motive (.stuck place next close)) (is : Items) : motive is :=
  match is with
  | .closed stop => closed stop
  | .item start value rest => item start value rest (chain closed item stuck rest)
  | .stuck place next close => stuck place next close

/-- Members one after the other, whatever their values are. -/
@[induction_eliminator] theorem Members.chain {motive : Members → Prop}
    (closed : ∀ stop, motive (.closed stop))
    (member : ∀ start key refused value rest, motive rest →
      motive (.member start key refused value rest))
    (stuck : ∀ place failure, motive (.stuck place failure)) (ms : Members) : motive ms :=
  match ms with
  | .closed stop => closed stop
  | .member start key refused value rest =>
    member start key refused value rest (chain closed member stuck rest)
  | .stuck place failure => stuck place failure

section Views

/-- The members of an object, in the order of the text. -/
def Members.entries : Members → List (String × Node)
  | closed _ | stuck _ _ => []
  | member _ key _ value rest => (key, value) :: rest.entries

def Members.keys (ms : Members) : List String := ms.entries.map (·.1)

/-- The values of the members with a key. -/
def Members.valuesOf (ms : Members) (key : String) : List Node :=
  (ms.entries.filter (·.1 == key)).map (·.2)

def Items.values : Items → List Node
  | closed _ | stuck _ _ _ => []
  | item _ value rest => value :: rest.values

/-- The members of a node that is an object. -/
def Node.objects : Node → List Members
  | object _ ms => [ms]
  | _ => []

/-- The values of the members of a node that is an object. -/
def Node.memberValues (n : Node) : List Node := n.objects.flatMap fun ms => ms.entries.map (·.2)

/-- The items of a node that is a list. -/
def Node.items : Node → List Node
  | list _ is => is.values
  | _ => []

def Node.string? : Node → Option String
  | text s _ => some s
  | _ => none

@[simp] theorem Members.entries_bare (ms : Members) :
    ms.bare.entries = ms.entries.map fun e => (e.1, e.2.bare) := by
  induction ms with
  | closed | stuck => rfl
  | member _ _ _ _ _ ih => simp [bare, entries, ih]

@[simp] theorem Members.keys_bare (ms : Members) : ms.bare.keys = ms.keys := by
  simp [keys, Function.comp_def]

@[simp] theorem Members.valuesOf_bare (ms : Members) (key : String) :
    ms.bare.valuesOf key = (ms.valuesOf key).map Node.bare := by
  simp [valuesOf, List.filter_map, Function.comp_def]

@[simp] theorem Items.values_bare (is : Items) : is.bare.values = is.values.map Node.bare := by
  induction is with
  | closed | stuck => rfl
  | item _ _ _ ih => simp [bare, values, ih]

@[simp] theorem Node.objects_bare (n : Node) : n.bare.objects = n.objects.map Members.bare := by
  cases n <;> rfl

@[simp] theorem Node.memberValues_bare (n : Node) :
    n.bare.memberValues = n.memberValues.map Node.bare := by
  simp [memberValues, List.flatMap_map, List.map_flatMap, Function.comp_def]

@[simp] theorem Node.items_bare (n : Node) : n.bare.items = n.items.map Node.bare := by
  cases n with
  | list _ is => exact is.values_bare
  | _ => rfl

@[simp] theorem Node.string?_bare (n : Node) : n.bare.string? = n.string? := by
  cases n <;> rfl

end Views

section Whole
variable {α β : Type} {decode : Decoder α} {n : Node} {a : α} {p : Place} {x : Except Failure α}

theorem mapError_eq_ok {ε ε' : Type} {f : ε → ε'} {x : Except ε α} :
    x.mapError f = .ok a ↔ x = .ok a := by
  cases x with
  | error e => exact ⟨nofun, nofun⟩
  | ok b => exact ⟨fun h => congrArg Except.ok (Except.ok.inj h), fun h => h ▸ rfl⟩

theorem within_eq_ok : within p x = .ok a ↔ x = .ok a := mapError_eq_ok

/-- A decoder accepts no value that has a failure in it. -/
def Decoder.Whole (decode : Decoder α) : Prop := ∀ n a, decode n = .ok a → n.failure? = none

theorem float_whole : Decoder.Whole float := by
  rintro (_ | _ | _ | _ | _ | _ | _) a h <;> first | rfl | cases h

theorem bool_whole : Decoder.Whole bool := by
  rintro (_ | _ | _ | _ | _ | _ | _) a h <;> first | rfl | cases h

theorem string_whole : Decoder.Whole string := by
  rintro (_ | _ | _ | _ | _ | _ | _) a h <;> first | rfl | cases h

theorem natural_whole (bound : Nat) (expected : String) :
    Decoder.Whole (natural bound expected) := by
  rintro (_ | _ | _ | _ | _ | _ | _) a h <;> first | rfl | cases h

theorem Decoder.Whole.map (hw : Decoder.Whole decode) (f : α → β) :
    Decoder.Whole fun n => (decode n).map f := by
  intro n b h
  obtain ⟨a, ha, -⟩ := map_eq_ok.mp h
  exact hw n a ha

theorem optional_whole (hw : Decoder.Whole decode) : Decoder.Whole (optional decode) := by
  intro n a h
  cases n with
  | null => rfl
  | _ => exact hw.map some _ _ h

theorem shaped_eq_ok {expected : String} {decode? : Node → Option α}
    (h : shaped expected decode? n = .ok a) : n.failure? = none ∧ decode? n = some a := by
  unfold shaped at h
  split at h
  · cases h
  next hf =>
  split at h <;> cases h
  next ha => exact ⟨hf, ha⟩

theorem shaped_whole {expected : String} {decode? : Node → Option α} :
    Decoder.Whole (shaped expected decode?) := fun _ _ h => (shaped_eq_ok h).1

/-- The values of a list, one for each item. -/
theorem Items.decode_eq_ok {items : Items} {as : List α} (h : items.decode decode = .ok as) :
    List.Forall₂ (decode · = .ok ·) items.values as := by
  induction items generalizing as with
  | closed =>
    cases h
    exact .nil
  | item _ value rest ih =>
    obtain ⟨a, ha, h⟩ := bind_eq_ok.mp h
    obtain ⟨as, has, ⟨⟩⟩ := bind_eq_ok.mp h
    exact .cons (within_eq_ok.mp ha) (ih has)
  | stuck => cases h

/-- A list has a value for each item of another one, in order. -/
def ListOf (reads : Node → α → Prop) (n : Node) (as : List α) : Prop :=
  ∃ p is, n = .list p is ∧ List.Forall₂ reads is.values as

theorem list_eq_ok {as : List α} (h : list decode n = .ok as) :
    ListOf (decode · = .ok ·) n as := by
  cases n with
  | list p items => exact ⟨p, items, rfl, Items.decode_eq_ok h⟩
  | _ => cases h

theorem ListOf.imp {reads others : Node → α → Prop} {as : List α}
    (hr : ∀ m a, reads m a → others m a) (h : ListOf reads n as) : ListOf others n as := by
  obtain ⟨p, is, hn, has⟩ := h
  exact ⟨p, is, hn, has.imp hr⟩

theorem forall₂_left {σ τ : Type} {R : σ → τ → Prop} {as : List σ} {bs : List τ}
    (h : List.Forall₂ R as bs) : ∀ a ∈ as, ∃ b, R a b := by
  induction h with
  | nil => nofun
  | cons hr _ ih => exact List.forall_mem_cons.mpr ⟨⟨_, hr⟩, ih⟩

/-- Each item of a list gives a value. -/
theorem ListOf.reads_items {reads : Node → α → Prop} {as : List α} (h : ListOf reads n as) :
    ∀ m ∈ n.items, ∃ a, reads m a := by
  obtain ⟨p, is, rfl, has⟩ := h
  exact forall₂_left has

theorem list_whole (hw : Decoder.Whole decode) : Decoder.Whole (list decode) := by
  have items (is : Items) (as : List α) (h : is.decode decode = .ok as) : is.failure? = none := by
    induction is generalizing as with
    | closed => rfl
    | item _ value rest ih =>
      obtain ⟨a, ha, h⟩ := bind_eq_ok.mp h
      obtain ⟨as, has, -⟩ := bind_eq_ok.mp h
      simp [Items.failure?, hw _ _ (within_eq_ok.mp ha), ih _ has]
    | stuck => cases h
  intro n as h
  cases n with
  | list _ is => exact items is as h
  | _ => cases h

end Whole

section Tables
variable {α β : Type} {decode : Decoder α}

/-- The entry of a table that a member gives, when its value is read in a way. -/
def Entry (reads : Node → α → Prop) (m : String × Node) (e : Word × α) : Prop :=
  e.1 = Word.ofString m.1 ∧ reads m.2 e.2

/-- A table has an entry for each member of an object and no others, by ascending keys. -/
def TableOf (reads : Node → α → Prop) (n : Node) (t : Keyed α) : Prop :=
  ∃ p ms es, n = .object p ms ∧ List.Forall₂ (Entry reads) ms.entries es ∧ t.Perm es ∧
    t.Pairwise fun e e' => e.1 < e'.1

/-- A table that is extended by the members of an object keeps its entries. -/
theorem Members.decode_eq_ok {ms : Members} {t u : Keyed α} (h : ms.decode decode t = .ok u)
    (ht : t.Pairwise fun e e' => e.1 < e'.1) :
    ∃ es, List.Forall₂ (Entry (decode · = .ok ·)) ms.entries es ∧ u.Perm (es ++ t) ∧
      u.Pairwise fun e e' => e.1 < e'.1 := by
  induction ms generalizing t with
  | closed =>
    cases h
    exact ⟨[], .nil, .refl _, ht⟩
  | member _ key _ value rest ih =>
    unfold Members.decode at h
    extract_lets k at h
    split at h
    · cases h
    next hk =>
    obtain ⟨a, ha, h⟩ := bind_eq_ok.mp h
    have hk := Keyed.pairwise_insert ht (Bool.eq_false_iff.mpr hk) a
    obtain ⟨es, hes, hu, hun⟩ := ih h hk
    refine ⟨(k, a) :: es, .cons ⟨rfl, within_eq_ok.mp ha⟩ hes, ?_, hun⟩
    exact hu.trans (((Keyed.insert_perm k a t).append_left es).trans List.perm_middle)
  | stuck => cases h

theorem table_eq_ok {n : Node} {t : Keyed α} (h : table decode n = .ok t) :
    TableOf (decode · = .ok ·) n t := by
  cases n with
  | object p ms =>
    obtain ⟨es, hes, ht, hk⟩ := Members.decode_eq_ok h .nil
    exact ⟨p, ms, es, rfl, hes, by simpa using ht, hk⟩
  | _ => cases h

theorem table_whole (hw : Decoder.Whole decode) : Decoder.Whole (table decode) := by
  have members (ms : Members) (t u : Keyed α) (h : ms.decode decode t = .ok u) :
      ms.failure? = none := by
    induction ms generalizing t with
    | closed => rfl
    | member _ key _ value rest ih =>
      unfold Members.decode at h
      extract_lets k at h
      split at h
      · cases h
      · obtain ⟨a, ha, h⟩ := bind_eq_ok.mp h
        simp [Members.failure?, hw _ _ (within_eq_ok.mp ha), ih _ h]
    | stuck => cases h
  intro n t h
  cases n with
  | object _ ms => exact members ms [] t h
  | _ => cases h

theorem TableOf.imp {reads others : Node → α → Prop} {n : Node} {t : Keyed α}
    (hr : ∀ m a, reads m a → others m a) (h : TableOf reads n t) : TableOf others n t := by
  obtain ⟨p, ms, es, hn, hes, ht, hk⟩ := h
  exact ⟨p, ms, es, hn, hes.imp fun _ _ he => ⟨he.1, hr _ _ he.2⟩, ht, hk⟩

/-- The value of each member of an object gives an entry. -/
theorem TableOf.reads_values {reads : Node → α → Prop} {n : Node} {t : Keyed α}
    (h : TableOf reads n t) : ∀ m ∈ n.memberValues, ∃ a, reads m a := by
  obtain ⟨p, ms, es, rfl, hes, -⟩ := h
  simp only [Node.memberValues, Node.objects, List.flatMap_singleton, List.forall_mem_map]
  intro m hm
  obtain ⟨e, he⟩ := forall₂_left hes m hm
  exact ⟨e.2, he.2⟩

private theorem entries_keys {reads : Node → α → Prop} {ms : Members} {es : List (Word × α)}
    (h : List.Forall₂ (Entry reads) ms.entries es) :
    es.map (·.1) = ms.keys.map Word.ofString := by
  rw [Members.keys, List.map_map]
  generalize ms.entries = entries at h
  induction h with
  | nil => rfl
  | cons he _ ih => rw [List.map_cons, List.map_cons, ih, he.1, Function.comp_apply]

/-- The keys of an object that a table is of are distinct. -/
theorem TableOf.keys_nodup {reads : Node → α → Prop} {n : Node} {t : Keyed α}
    (h : TableOf reads n t) : ∀ ms ∈ n.objects, ms.keys.Nodup := by
  obtain ⟨p, ms, es, rfl, hes, ht, hk⟩ := h
  have hn := (ht.map (·.1)).nodup_iff.mp (Keyed.keys_nodup hk)
  rw [entries_keys hes] at hn
  rintro _ (_ | ⟨_, ⟨⟩⟩)
  exact List.Nodup.of_map Word.ofString hn

end Tables

end Lindenmayer.Json
