import Lindenmayer.Preset.Decode
import Lindenmayer.Proofs.Json.Records

/-! Accepted preset documents: they are read as a whole, and each part of a preset is decoded from
the one node that stands for it. -/
namespace Lindenmayer
open Json

namespace DecorationConfig

/-- The tags in a node of a decoration, each with what is left of the node without its tag. -/
def tagged : Node → List (Node × Node)
  | .object start ms => (ms.valuesOf "hook").map (·, .object start (withoutTag ms))
  | .list start (.item _ first rest) => [(first, .list start rest)]
  | _ => []

@[simp] theorem withoutTag_bare (ms : Members) : withoutTag ms.bare = (withoutTag ms).bare := by
  induction ms with
  | closed | stuck => rfl
  | member _ key _ _ _ ih =>
    by_cases hk : key = "hook"
    · subst hk
      simp [withoutTag, Members.bare, ih]
    · simp [withoutTag, Members.bare, ih]

@[simp] theorem tagged_bare (n : Node) :
    tagged n.bare = (tagged n).map fun t => (t.1.bare, t.2.bare) := by
  cases n with
  | object => simp [tagged, Node.bare]
  | list _ items => cases items <;> rfl
  | _ => rfl

theorem unplaced_eq_ok {α : Type} {x : Except Failure α} {a : α} :
    unplaced x = .ok a ↔ x = .ok a := mapError_eq_ok

theorem findTag_other {start refused : Place} {key : String} {value : Node} {rest : Members}
    {tag? : Option Tag} {tag : Tag} (hk : key ≠ "hook") :
    findTag (.member start key refused value rest) tag? = .ok tag ↔
      value.failure? = none ∧ findTag rest tag? = .ok tag := by
  rw [findTag]
  · cases value.failure? <;> simp
  · exact hk

theorem Tag.decode_whole : Decoder.Whole Tag.decode := by
  rintro (_ | _ | _ | _ | _ | _ | _) a h <;> first | rfl | cases h

/-- After a tag there is no other one. -/
theorem findTag_some {ms : Members} {t tag : Tag} (h : findTag ms (some t) = .ok tag) :
    ms.valuesOf "hook" = [] ∧ tag = t ∧ ms.failure? = none := by
  induction ms with
  | closed =>
    cases h
    exact ⟨rfl, rfl, rfl⟩
  | member _ key _ value rest ih =>
    by_cases hk : key = "hook"
    · subst hk
      cases h
    · obtain ⟨hv, h⟩ := (findTag_other hk).mp h
      obtain ⟨hr, ht, hf⟩ := ih h
      exact ⟨by simpa [Members.valuesOf, Members.entries, hk] using hr, ht,
        by simp [Members.failure?, hv, hf]⟩
  | stuck => cases h

/-- There is one tag among the members of an object that has one. -/
theorem findTag_none {ms : Members} {tag : Tag} (h : findTag ms none = .ok tag) :
    (∃ m, ms.valuesOf "hook" = [m] ∧ Tag.decode m = .ok tag) ∧ ms.failure? = none := by
  induction ms with
  | closed => cases h
  | member _ key _ value rest ih =>
    by_cases hk : key = "hook"
    · subst hk
      obtain ⟨t, ht, h⟩ := bind_eq_ok.mp h
      obtain ⟨hr, rfl, hf⟩ := findTag_some h
      have ht := within_eq_ok.mp ht
      exact ⟨⟨value, by simpa [Members.valuesOf, Members.entries] using hr, ht⟩,
        by simp [Members.failure?, Tag.decode_whole _ _ ht, hf]⟩
    · obtain ⟨hv, h⟩ := (findTag_other hk).mp h
      obtain ⟨hr, hf⟩ := ih h
      exact ⟨by simpa [Members.valuesOf, Members.entries, hk] using hr,
        by simp [Members.failure?, hv, hf]⟩
  | stuck => cases h

/-- A decoration that is accepted has one tag and is decoded from what is left. -/
theorem decode_eq_ok {n : Node} {d : DecorationConfig} (h : decode n = .ok d) :
    ∃ tagNode body tag, tagged n = [(tagNode, body)] ∧ Tag.decode tagNode = .ok tag ∧
      ofTag tag body = .ok d ∧ n.failure? = none := by
  cases n with
  | object start ms =>
    obtain ⟨tag, ht, h⟩ := bind_eq_ok.mp h
    obtain ⟨⟨m, hm, ht⟩, hf⟩ := findTag_none ht
    exact ⟨m, _, tag, by simp [tagged, hm], ht, unplaced_eq_ok.mp h, hf⟩
  | list start items =>
    cases items with
    | item _ first rest =>
      obtain ⟨tag, ht, h⟩ := bind_eq_ok.mp h
      have ht := within_eq_ok.mp ht
      split at h
      · cases h
      · next hf =>
        exact ⟨first, _, tag, rfl, ht, unplaced_eq_ok.mp h,
          by simp [Node.failure?, Items.failure?, Tag.decode_whole _ _ ht, hf]⟩
    | _ => cases h
  | _ => cases h

theorem decode_whole : Decoder.Whole decode := by
  intro n d h
  obtain ⟨_, _, _, -, -, -, hf⟩ := decode_eq_ok h
  exact hf

theorem hasPart_table :
    tableRecord.HasPart "table" (Json.table (Rgb.decode .ahead)) (fun t => t) := by
  refine .of_slot List.mem_cons_self (by decide) (Slot.stores_of fun _ _ => rfl) ?_
  rintro q (_ | ⟨_, ⟨⟩⟩) hn
  exact absurd rfl hn

/-- Only the tag of a table makes one. -/
theorem ofTag_table {tag : Tag} {body : Node} {t : Keyed Rgb}
    (h : ofTag tag body = .ok (.table t)) :
    tag = .table ∧ tableRecord.decode .ahead body = .ok t := by
  cases tag with
  | table =>
    obtain ⟨_, ht, ⟨⟩⟩ := map_eq_ok.mp h
    exact ⟨rfl, ht⟩
  | wheel | taper =>
    obtain ⟨_, -, ht⟩ := map_eq_ok.mp h
    cases ht

end DecorationConfig

section Parts

theorem Preset.record_parts :
    record.HasPart "lsystem" SystemConfig.decode (·.system) ∧
    record.HasPart "draw" DrawConfig.decode (·.draw) ∧
    record.HasPart "style" Style.decode (·.style) := by
  refine ⟨.of_slot (.head _) (by decide) (Slot.stores_of fun _ _ => rfl) ?_,
    .of_slot (.tail _ (.head _)) (by decide) (Slot.stores_of fun _ _ => rfl) ?_,
    .of_slot (.tail _ (.tail _ (.head _))) (by decide) (Slot.stores_of fun _ _ => rfl) ?_⟩
  all_goals
    simp only [record, List.forall_mem_cons]
    and_intros <;> first
      | exact fun _ => Slot.spares_of fun _ _ => rfl
      | exact fun h => absurd rfl h
      | nofun

theorem SystemConfig.record_parts :
    record.HasPart "rules" (table Production.decode) (·.rules) ∧
    record.HasPart "actions" (table NamedAction.decode) (·.actions) := by
  refine ⟨.of_slot (p := record.slots[1]) (by simp) (by decide) (Slot.stores_of fun _ _ => rfl) ?_,
    .of_slot (p := record.slots[7]) (by simp) (by decide) (Slot.stores_of fun _ _ => rfl) ?_⟩
  all_goals
    simp only [record, List.forall_mem_cons]
    and_intros <;> first
      | exact fun _ => Slot.spares_of fun _ _ => rfl
      | exact fun h => absurd rfl h
      | nofun

theorem DrawConfig.record_parts :
    record.HasPart "iterations" Passes.decode (·.passes) ∧
    record.HasPart "hooks" (list DecorationConfig.decode) (·.decorations) := by
  refine ⟨.of_slot (.head _) (by decide) (Slot.stores_of fun _ _ => rfl) ?_,
    .of_slot (p := record.slots[6]) (by simp) (by decide) (Slot.stores_of fun _ _ => rfl) ?_⟩
  all_goals
    simp only [record, List.forall_mem_cons]
    and_intros <;> first
      | exact fun _ => Slot.spares_of fun _ _ => rfl
      | exact fun h => absurd rfl h
      | nofun

end Parts

section Whole

theorem NamedAction.decode_whole : Decoder.Whole NamedAction.decode :=
  Record.decode_whole <| List.forall_mem_cons.mpr ⟨Slot.whole_of string_whole,
    List.forall_mem_cons.mpr ⟨Slot.whole_of (list_whole float_whole), nofun⟩⟩

theorem SystemConfig.decode_whole : Decoder.Whole SystemConfig.decode := by
  refine Record.decode_whole ?_
  simp only [record, List.forall_mem_cons]
  and_intros
  · exact Slot.whole_of (string_whole.map _)
  · exact Slot.whole_of (table_whole shaped_whole)
  · exact Slot.whole_of float_whole
  · exact Slot.whole_of float_whole
  · exact Slot.whole_of float_whole
  · exact Slot.whole_of float_whole
  · exact Slot.whole_of float_whole
  · exact Slot.whole_of (table_whole NamedAction.decode_whole)
  · nofun

theorem Point.decode_whole : Decoder.Whole (Point.decode .direct) :=
  Record.array_whole <| List.forall_mem_cons.mpr ⟨Slot.whole_of float_whole,
    List.forall_mem_cons.mpr ⟨Slot.whole_of float_whole, nofun⟩⟩

theorem Rgb.decode_whole : Decoder.Whole (Rgb.decode .direct) := by
  have hb : Decoder.Whole byte := (natural_whole _ _).map _
  exact Record.array_whole <| List.forall_mem_cons.mpr ⟨Slot.whole_of hb,
    List.forall_mem_cons.mpr ⟨Slot.whole_of hb,
      List.forall_mem_cons.mpr ⟨Slot.whole_of hb, nofun⟩⟩⟩

theorem DrawConfig.decode_whole : Decoder.Whole DrawConfig.decode := by
  refine Record.decode_whole ?_
  simp only [record, List.forall_mem_cons]
  and_intros
  · exact Slot.whole_of shaped_whole
  · exact Slot.whole_of float_whole
  · exact Slot.whole_of float_whole
  · exact Slot.whole_of Point.decode_whole
  · exact Slot.whole_of (optional_whole float_whole)
  · exact Slot.whole_of bool_whole
  · exact Slot.whole_of (list_whole DecorationConfig.decode_whole)
  · nofun

theorem Style.decode_whole : Decoder.Whole Style.decode := by
  refine Record.decode_whole ?_
  simp only [record, List.forall_mem_cons]
  and_intros
  · exact Slot.whole_of Rgb.decode_whole
  · exact Slot.whole_of float_whole
  · exact Slot.whole_of (optional_whole Rgb.decode_whole)
  · nofun

end Whole

namespace Preset

theorem decode_whole : Decoder.Whole decode := by
  refine Record.decode_whole ?_
  simp only [record, List.forall_mem_cons]
  and_intros
  · exact Slot.whole_of SystemConfig.decode_whole
  · exact Slot.whole_of DrawConfig.decode_whole
  · exact Slot.whole_of Style.decode_whole
  · nofun

/-- A text that presets are loaded from is a document, and the presets are decoded from it. -/
theorem of_load {text : String} {presets : Keyed Preset} (h : load text = .ok presets) :
    (read text).root.IsDocument text ∧ table decode (read text).root = .ok presets := by
  obtain ⟨ps, hps, h⟩ := bind_eq_ok.mp (mapError_eq_ok.mp h)
  obtain ⟨⟨⟩, ht, ⟨⟩⟩ := bind_eq_ok.mp h
  exact ⟨read_isDocument (table_whole decode_whole _ _ hps) ht, hps⟩

/-- What a document is refused for: anything that can be told from its text alone and that no
document has from which presets are loaded. The fault is with the document then. -/
theorem load_refused {text : String} {root : Node} (bad : Node → Prop)
    (hbare : ∀ n, bad n.bare ↔ bad n)
    (hok : ∀ presets, load text = .ok presets → ¬ bad (read text).root)
    (hd : root.IsDocument text) (hb : bad root) :
    ∃ f, load text = .error f ∧ f.kind = .invalidConfig := by
  cases h : load text with
  | error f =>
    refine ⟨f, rfl, ?_⟩
    unfold load at h
    cases hd : decodeText (table decode) text with
    | error d =>
      rw [hd] at h
      cases h
      rfl
    | ok presets =>
      rw [hd] at h
      cases h
  | ok presets =>
    refine absurd ?_ (hok presets h)
    rw [← hbare, ← hd.bare_eq (of_load h).1, hbare]
    exact hb

end Preset
end Lindenmayer
