import Lindenmayer.Proofs.Json.Decoding

/-! What records hold of the objects and arrays they are decoded from. -/
namespace Lindenmayer.Json

namespace Slot
variable {α β γ : Type}

/-- A part that is stored is what a decoder makes of its node. -/
def Stores (p : Slot α) (decode : Decoder β) (get : α → β) : Prop :=
  ∀ n a b, p.store n a = .ok b → decode n = .ok (get b)

/-- Storing a part leaves another one as it is. -/
def Spares (p : Slot α) (get : α → β) : Prop := ∀ n a b, p.store n a = .ok b → get b = get a

def Whole (p : Slot α) : Prop := ∀ n a b, p.store n a = .ok b → n.failure? = none

variable {name : String} {required : Bool} {decode : Decoder γ} {set : γ → α → α}

theorem stores_of {get : α → γ} (h : ∀ c a, get (set c a) = c) :
    Stores ⟨name, required, fun n a => (decode n).map (set · a)⟩ decode get := by
  intro n a b hs
  obtain ⟨c, hc, rfl⟩ := map_eq_ok.mp hs
  rw [hc, h]

theorem spares_of {get : α → β} (h : ∀ c a, get (set c a) = get a) :
    Spares ⟨name, required, fun n a => (decode n).map (set · a)⟩ get := by
  intro n a b hs
  obtain ⟨c, -, rfl⟩ := map_eq_ok.mp hs
  exact h c a

theorem whole_of (h : Decoder.Whole decode) :
    Whole ⟨name, required, fun n a => (decode n).map (set · a)⟩ := by
  intro n a b hs
  obtain ⟨c, hc, -⟩ := map_eq_ok.mp hs
  exact h n c hc

end Slot

/-- The members with certain keys. -/
def Members.only (names : List String) : Members → Members
  | .closed stop => .closed stop
  | .member start key refused value rest =>
    if key ∈ names then .member start key refused value (rest.only names) else rest.only names
  | .stuck place f => .stuck place f

/-- An object with those of its members that have certain keys. -/
def Node.only (names : List String) : Node → Node
  | .object start ms => .object start (ms.only names)
  | n => n

namespace Record
variable {α β : Type} (r : Record α)

def names : List String := r.slots.map (·.name)

/-- What stands in a node for a part: at most one item of an array, or the values of all members
of the name. -/
def part (name : String) : Node → List Node
  | .object _ ms => ms.valuesOf name
  | .list _ is => is.values[r.slots.findIdx (·.name == name)]?.toList
  | _ => []

@[simp] theorem part_bare (name : String) (n : Node) :
    r.part name n.bare = (r.part name n).map Node.bare := by
  cases n with
  | list => simp [part, Node.bare, Option.toList_map]
  | object => simp [part, Node.bare]
  | _ => rfl

/-- A part of a record: the one slot of its name stores it, and the others spare it. -/
structure HasPart (name : String) (decode : Decoder β) (get : α → β) : Prop where
  named : name ∈ r.names
  distinct : r.names.Nodup
  stores : ∀ p ∈ r.slots, p.name = name → p.Stores decode get
  spares : ∀ p ∈ r.slots, p.name ≠ name → p.Spares get

/-- A part of a value is read from the one node that stands for it, or is absent if none does. -/
def PartOf (name : String) (reads : Node → β → Prop) (absent : β) (n : Node) (b : β) : Prop :=
  (∃ m, r.part name n = [m] ∧ reads m b) ∨ r.part name n = [] ∧ b = absent

variable {r} {name : String} {decode : Decoder β} {get : α → β}

/-- The one slot of a name makes a part, if the others spare it. -/
theorem HasPart.of_slot {p : Slot α} (hp : p ∈ r.slots) (hd : r.names.Nodup)
    (hst : p.Stores decode get) (hsp : ∀ q ∈ r.slots, q.name ≠ p.name → q.Spares get) :
    r.HasPart p.name decode get where
  named := List.mem_map_of_mem hp
  distinct := hd
  stores _ hq hn := List.inj_on_of_nodup_map hd hq hp hn ▸ hst
  spares := hsp

section Objects

theorem find?_eq_none {key : String} :
    r.slots.find? (·.name == key) = none ↔ key ∉ r.names := by
  simp [names]

theorem find?_eq_some {key : String} {p : Slot α}
    (h : r.slots.find? (·.name == key) = some p) : p ∈ r.slots ∧ p.name = key :=
  ⟨List.mem_of_find?_eq_some h, by simpa using List.find?_some h⟩

/-- What a member does to a record that goes on to be accepted. -/
theorem ofMembers_member {start refused : Place} {key : String} {value : Node} {rest : Members}
    {seen : List String} {a b : α}
    (h : r.ofMembers (.member start key refused value rest) seen a = .ok b) :
    (key ∉ r.names ∧ r.strict = false ∧ value.failure? = none ∧ r.ofMembers rest seen a = .ok b) ∨
    ∃ p ∈ r.slots, p.name = key ∧ r.slots.find? (·.name == key) = some p ∧ key ∉ seen ∧
      ∃ c, p.store value a = .ok c ∧ r.ofMembers rest (key :: seen) c = .ok b := by
  rw [ofMembers] at h
  split at h
  · next hp =>
    left
    split at h
    · cases h
    next hs =>
    split at h
    · cases h
    next hv => exact ⟨find?_eq_none.mp hp, by simpa using hs, hv, h⟩
  · next p hf =>
    right
    obtain ⟨hp, hk⟩ := find?_eq_some hf
    split at h
    · cases h
    next hs =>
    obtain ⟨c, hc, h⟩ := bind_eq_ok.mp h
    exact ⟨p, hp, hk, hf, by simpa using hs, c, within_eq_ok.mp hc, h⟩

theorem ofMembers_seen (hr : r.HasPart name decode get) {ms : Members} {seen : List String}
    {a b : α} (hs : name ∈ seen) (h : r.ofMembers ms seen a = .ok b) :
    ms.valuesOf name = [] ∧ get b = get a := by
  induction ms generalizing seen a with
  | closed =>
    rw [ofMembers] at h
    split at h <;> cases h
    exact ⟨rfl, rfl⟩
  | member _ key _ value rest ih =>
    rcases ofMembers_member h with ⟨hk, -, -, h⟩ | ⟨p, hp, rfl, -, hk, c, hc, h⟩
    · obtain ⟨hv, hg⟩ := ih hs h
      have hne : key ≠ name := fun he => hk (he ▸ hr.named)
      exact ⟨by simpa [Members.valuesOf, Members.entries, hne] using hv, hg⟩
    · obtain ⟨hv, hg⟩ := ih (List.mem_cons_of_mem _ hs) h
      have hne : p.name ≠ name := fun he => hk (he ▸ hs)
      exact ⟨by simpa [Members.valuesOf, Members.entries, hne] using hv,
        hg.trans (hr.spares p hp hne value a c hc)⟩
  | stuck => cases h

theorem ofMembers_unseen (hr : r.HasPart name decode get) {ms : Members} {seen : List String}
    {a b : α} (hs : name ∉ seen) (h : r.ofMembers ms seen a = .ok b) :
    (∃ m, ms.valuesOf name = [m] ∧ decode m = .ok (get b)) ∨
      ms.valuesOf name = [] ∧ get b = get a := by
  induction ms generalizing seen a with
  | closed =>
    rw [ofMembers] at h
    split at h <;> cases h
    exact .inr ⟨rfl, rfl⟩
  | member _ key _ value rest ih =>
    rcases ofMembers_member h with ⟨hk, -, -, h⟩ | ⟨p, hp, rfl, -, hk, c, hc, h⟩
    · have hne : key ≠ name := fun he => hk (he ▸ hr.named)
      simpa [Members.valuesOf, Members.entries, hne] using ih hs h
    · by_cases hn : p.name = name
      · obtain ⟨hv, hg⟩ := ofMembers_seen hr (hn ▸ List.mem_cons_self) h
        refine .inl ⟨value, ?_, hg ▸ hr.stores p hp hn value a c hc⟩
        simpa [Members.valuesOf, Members.entries, hn] using hv
      · have hi := ih (by simp [Ne.symm hn, hs]) h
        rw [hr.spares p hp hn value a c hc] at hi
        simpa [Members.valuesOf, Members.entries, hn] using hi
  | stuck => cases h

/-- A required part is there at the end, if it was not before. -/
theorem ofMembers_required (hreq : ∀ p ∈ r.slots, p.name = name → p.required = true)
    (hn : name ∈ r.names) {ms : Members} {seen : List String} {a b : α}
    (h : r.ofMembers ms seen a = .ok b) : name ∈ seen ∨ ms.valuesOf name ≠ [] := by
  induction ms generalizing seen a with
  | closed =>
    rw [ofMembers] at h
    split at h
    · cases h
    · next hf =>
      obtain ⟨p, hp, rfl⟩ := List.mem_map.mp hn
      left
      simpa [hreq p hp rfl] using List.find?_eq_none.mp hf p hp
  | member _ key _ value rest ih =>
    by_cases hk : key = name
    · exact .inr (by simp [Members.valuesOf, Members.entries, hk])
    · have hv (hr : rest.valuesOf name ≠ []) :
          (Members.member ‹_› key ‹_› value rest).valuesOf name ≠ [] := by
        simpa [Members.valuesOf, Members.entries, hk] using hr
      rcases ofMembers_member h with ⟨-, -, -, h⟩ | ⟨p, -, rfl, -, -, c, -, h⟩
      · exact (ih h).imp_right hv
      · exact (ih h).imp (fun hs => (List.mem_cons.mp hs).resolve_left (Ne.symm hk)) hv
  | stuck => cases h

theorem ofMembers_whole (hw : ∀ p ∈ r.slots, p.Whole) {ms : Members} {seen : List String}
    {a b : α} (h : r.ofMembers ms seen a = .ok b) : ms.failure? = none := by
  induction ms generalizing seen a with
  | closed => rfl
  | member _ key _ value rest ih =>
    rcases ofMembers_member h with ⟨-, -, hv, h⟩ | ⟨p, hp, -, -, -, c, hc, h⟩
    · simp [Members.failure?, hv, ih h]
    · simp [Members.failure?, hw p hp value a c hc, ih h]
  | stuck => cases h

/-- A strict record has all members of an object it accepts for its parts. -/
theorem ofMembers_strict (hs : r.strict = true) {ms : Members} {seen : List String} {a b : α}
    (h : r.ofMembers ms seen a = .ok b) : ∀ key ∈ ms.keys, key ∈ r.names := by
  induction ms generalizing seen a with
  | closed => nofun
  | member _ key _ value rest ih =>
    rcases ofMembers_member h with ⟨-, hn, -, -⟩ | ⟨p, hp, rfl, -, -, c, -, h⟩
    · cases hs.symm.trans hn
    · exact List.forall_mem_cons.mpr ⟨List.mem_map_of_mem hp, ih h⟩
  | stuck => cases h

/-- Members that are no part of a record are passed over. -/
theorem ofMembers_only {names : List String} (hsub : r.names ⊆ names) {ms : Members}
    {seen : List String} {a b : α} (h : r.ofMembers ms seen a = .ok b) :
    r.ofMembers (ms.only names) seen a = .ok b := by
  induction ms generalizing seen a with
  | closed => exact h
  | member start key refused value rest ih =>
    rw [Members.only]
    rcases ofMembers_member h with ⟨hk, hs, hv, h⟩ | ⟨p, hp, rfl, hf, hk, c, hc, h⟩
    · split
      · rw [ofMembers, find?_eq_none.mpr hk]
        simp only [hs, hv]
        exact ih h
      · exact ih h
    · rw [if_pos (hsub (List.mem_map_of_mem hp)), ofMembers, hf]
      simp only [List.contains_eq_mem, hk, decide_false, Bool.false_eq_true, if_false]
      exact bind_eq_ok.mpr ⟨c, within_eq_ok.mpr hc, ih h⟩
  | stuck => cases h

end Objects

section Arrays
variable {reach : Reach} {total i : Nat} {expected : String} {ps : List (Slot α)} {items : Items}
  {a b : α}

/-- What the next part does to a record that goes on to be accepted. -/
theorem fill_cons {p : Slot α} (h : items.fill reach total expected (p :: ps) i a = .ok b) :
    (∃ start value rest c, items = .item start value rest ∧ p.store value a = .ok c ∧
      rest.fill reach total expected ps (i + 1) c = .ok b) ∨
    ∃ stop, items = .closed stop ∧
      (Items.closed stop).fill reach total expected ps (i + 1) a = .ok b := by
  cases items with
  | item start value rest =>
    obtain ⟨c, hc, h⟩ := bind_eq_ok.mp h
    exact .inl ⟨start, value, rest, c, rfl, within_eq_ok.mp hc, h⟩
  | closed stop =>
    rw [Items.fill] at h
    split at h
    · cases h
    · exact .inr ⟨stop, rfl, h⟩
  | stuck => cases h

theorem fill_nil (h : items.fill reach total expected [] i a = .ok b) : b = a := by
  obtain ⟨_, -, rfl⟩ := map_eq_ok.mp h
  rfl

theorem fill_spares (hp : ∀ p ∈ ps, p.Spares get)
    (h : items.fill reach total expected ps i a = .ok b) : get b = get a := by
  induction ps generalizing items i a with
  | nil => rw [fill_nil h]
  | cons p ps ih =>
    obtain ⟨hp, hps⟩ := List.forall_mem_cons.mp hp
    rcases fill_cons h with ⟨_, value, rest, c, rfl, hc, hf⟩ | ⟨stop, rfl, hf⟩
    · exact (ih hps hf).trans (hp value a c hc)
    · exact ih hps hf

theorem fill_part (hn : name ∈ ps.map (·.name)) (hd : (ps.map (·.name)).Nodup)
    (hst : ∀ p ∈ ps, p.name = name → p.Stores decode get)
    (hsp : ∀ p ∈ ps, p.name ≠ name → p.Spares get)
    (h : items.fill reach total expected ps i a = .ok b) :
    (∃ m, items.values[ps.findIdx (·.name == name)]?.toList = [m] ∧ decode m = .ok (get b)) ∨
      items.values[ps.findIdx (·.name == name)]?.toList = [] ∧ get b = get a := by
  induction ps generalizing items i a with
  | nil => cases hn
  | cons p ps ih =>
    obtain ⟨hp, hd⟩ := List.nodup_cons.mp hd
    obtain ⟨hst, hsts⟩ := List.forall_mem_cons.mp hst
    obtain ⟨hsp, hsps⟩ := List.forall_mem_cons.mp hsp
    by_cases hpn : p.name = name
    · -- The names are distinct, so no later slot writes over the part.
      have hspares (q : Slot α) (hq : q ∈ ps) : q.Spares get :=
        hsps q hq fun hqn => hp (List.mem_map.mpr ⟨q, hq, hqn.trans hpn.symm⟩)
      rcases fill_cons h with ⟨_, value, rest, c, rfl, hc, hf⟩ | ⟨stop, rfl, hf⟩
      · left
        exact ⟨value, by simp [Items.values, List.findIdx_cons, hpn],
          fill_spares hspares hf ▸ hst hpn value a c hc⟩
      · exact .inr ⟨rfl, fill_spares hspares hf⟩
    · have hn : name ∈ ps.map (·.name) := by simpa [Ne.symm hpn] using hn
      have hidx : (p :: ps).findIdx (·.name == name) = ps.findIdx (·.name == name) + 1 := by
        rw [List.findIdx_cons, beq_false_of_ne hpn, cond_false]
      rw [hidx]
      rcases fill_cons h with ⟨_, value, rest, c, rfl, hc, hf⟩ | ⟨stop, rfl, hf⟩
      · rw [← hsp hpn value a c hc]
        exact ih hn hd hsts hsps hf
      · exact ih hn hd hsts hsps hf

theorem fill_required (hreq : ∀ p ∈ ps, p.name = name → p.required = true)
    (hn : name ∈ ps.map (·.name)) (h : items.fill reach total expected ps i a = .ok b) :
    items.values[ps.findIdx (·.name == name)]?.toList ≠ [] := by
  induction ps generalizing items i a with
  | nil => cases hn
  | cons p ps ih =>
    obtain ⟨hp, hps⟩ := List.forall_mem_cons.mp hreq
    by_cases hpn : p.name = name
    · rcases fill_cons h with ⟨_, value, rest, c, rfl, -, -⟩ | ⟨stop, rfl, -⟩
      · simp [Items.values, List.findIdx_cons, hpn]
      · simp [Items.fill, hp hpn] at h
    · have hn : name ∈ ps.map (·.name) := by simpa [Ne.symm hpn] using hn
      rw [List.findIdx_cons, beq_false_of_ne hpn, cond_false]
      rcases fill_cons h with ⟨_, value, rest, c, rfl, -, hf⟩ | ⟨stop, rfl, hf⟩
      · exact ih hps hn hf
      · exact ih hps hn hf

theorem fill_whole (hw : ∀ p ∈ ps, p.Whole)
    (h : items.fill .direct total expected ps i a = .ok b) : items.failure? = none := by
  induction ps generalizing items i a with
  | nil =>
    obtain ⟨_, hf, -⟩ := map_eq_ok.mp h
    cases items with
    | closed => rfl
    | _ => cases hf
  | cons p ps ih =>
    obtain ⟨hp, hps⟩ := List.forall_mem_cons.mp hw
    rcases fill_cons h with ⟨_, value, rest, c, rfl, hc, hf⟩ | ⟨stop, rfl, -⟩
    · simp [Items.failure?, hp value a c hc, ih hps hf]
    · rfl

end Arrays

/-- A part of an accepted record is decoded from the one node that stands for it, or left as it is
in the record that decoding starts from. -/
theorem partOf_of_decode (hr : r.HasPart name decode get) {reach : Reach} {n : Node} {b : α}
    (h : r.decode reach n = .ok b) :
    r.PartOf name (decode · = .ok ·) (get r.start) n (get b) := by
  cases n with
  | object _ ms => exact ofMembers_unseen hr List.not_mem_nil h
  | list _ is => exact fill_part hr.named hr.distinct hr.stores hr.spares h
  | _ => cases h

/-- A required part of an accepted record is there. -/
theorem part_of_required (hr : r.HasPart name decode get)
    (hreq : ∀ p ∈ r.slots, p.name = name → p.required = true) {reach : Reach} {n : Node} {b : α}
    (h : r.decode reach n = .ok b) : ∃ m, r.part name n = [m] ∧ decode m = .ok (get b) := by
  refine (partOf_of_decode hr h).resolve_right ?_
  rintro ⟨hp, -⟩
  cases n with
  | object _ ms => exact (ofMembers_required hreq hr.named h).elim List.not_mem_nil (· hp)
  | list _ is => exact fill_required hreq hr.named h hp
  | _ => cases h

theorem PartOf.imp {reads others : Node → β → Prop} {absent b : β} {n : Node}
    (hi : ∀ m c, reads m c → others m c) (h : r.PartOf name reads absent n b) :
    r.PartOf name others absent n b :=
  h.imp_left fun ⟨m, hm, hb⟩ => ⟨m, hm, hi m b hb⟩

theorem PartOf.reads_part {reads : Node → β → Prop} {absent b : β} {n : Node}
    (h : r.PartOf name reads absent n b) : ∀ m ∈ r.part name n, reads m b := by
  rcases h with ⟨m, hm, hb⟩ | ⟨hm, -⟩
  · simpa [hm] using hb
  · simp [hm]

/-- Every member of an object that is decoded as a strict record is a part of it. -/
theorem names_of_strict (hs : r.strict = true) {reach : Reach} {n : Node} {b : α}
    (h : r.decode reach n = .ok b) : ∀ ms ∈ n.objects, ∀ key ∈ ms.keys, key ∈ r.names := by
  cases n with
  | object _ ms =>
    rintro _ (_ | ⟨_, ⟨⟩⟩)
    exact ofMembers_strict hs h
  | _ => nofun

theorem decode_whole (hw : ∀ p ∈ r.slots, p.Whole) : Decoder.Whole (r.decode .direct) := by
  intro n b h
  cases n with
  | object _ ms => exact ofMembers_whole hw h
  | list _ is => exact fill_whole hw h
  | _ => cases h

theorem array_whole {ps : List (Slot α)} {start : α} (hw : ∀ p ∈ ps, p.Whole) :
    Decoder.Whole (array .direct ps start) := by
  intro n b h
  cases n with
  | list _ is => exact fill_whole hw h
  | _ => cases h

end Record

end Lindenmayer.Json
