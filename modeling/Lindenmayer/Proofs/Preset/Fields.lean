import Lindenmayer.Proofs.Preset.Documents

/-! The fields of preset documents. A member that is no field of its object is refused, except among
the fields of a decoration, where it is passed over. -/
namespace Lindenmayer
open Json

/-- The fields that an object may have, and the members that it has. -/
abbrev Form := List String × Members

/-- No member of an object is unknown. -/
def Form.Known (f : Form) : Prop := ∀ key ∈ f.2.keys, key ∈ f.1

/-- The object at a node, if it is one, against some fields. -/
def forms (fields : List String) (n : Node) : List Form := n.objects.map (fields, ·)

def Form.bare (f : Form) : Form := (f.1, f.2.bare)

theorem Form.known_bare (f : Form) : f.bare.Known ↔ f.Known := by
  simp [Known, bare]

theorem forms_bare (fields : List String) (n : Node) :
    forms fields n.bare = (forms fields n).map Form.bare := by
  simp [forms, Form.bare, Function.comp_def]

theorem forms_known {α : Type} {r : Record α} (hs : r.strict = true) {reach : Reach} {n : Node}
    {a : α} (h : r.decode reach n = .ok a) : ∀ f ∈ forms r.names n, f.Known := by
  intro f hf
  obtain ⟨ms, hms, rfl⟩ := List.mem_map.mp hf
  exact r.names_of_strict hs h ms hms

namespace Production

def forms (n : Node) : List Form := n.items.flatMap (Lindenmayer.forms alternativeRecord.names)

theorem forms_bare (n : Node) : forms n.bare = (forms n).map Form.bare := by
  simp [forms, List.flatMap_map, List.map_flatMap, Lindenmayer.forms_bare]

theorem forms_known {n : Node} {p : Production} (h : decode n = .ok p) :
    ∀ f ∈ forms n, f.Known := by
  obtain ⟨-, h⟩ := shaped_eq_ok h
  unfold ofNode? at h
  split at h
  · nofun
  · obtain ⟨as, has, -⟩ := Option.map_eq_some_iff.mp h
    cases hl : list (alternativeRecord.decode .ahead) n with
    | error f =>
      rw [hl] at has
      cases has
    | ok as =>
      intro f hf
      obtain ⟨m, hm, hf⟩ := List.mem_flatMap.mp hf
      obtain ⟨a, ha⟩ := (list_eq_ok hl).reads_items m hm
      exact Lindenmayer.forms_known rfl ha f hf

end Production

namespace Passes

/-- The keyword for a stable word may stand as the only member of an object. -/
def forms : Node → List Form := Lindenmayer.forms ["fixed_point"]

theorem forms_known {n : Node} {p : Passes} (h : decode n = .ok p) :
    ∀ f ∈ forms n, f.Known := by
  obtain ⟨-, h⟩ := shaped_eq_ok h
  unfold ofNode? at h
  split at h
  · nofun
  · rintro _ (_ | ⟨_, ⟨⟩⟩)
    exact fun _ => id
  · cases n with
    | object => cases h
    | _ => nofun

end Passes

namespace SystemConfig

def forms (n : Node) : List Form :=
  Lindenmayer.forms record.names n ++
    (record.part "rules" n).flatMap (·.memberValues.flatMap Production.forms) ++
    (record.part "actions" n).flatMap
      (·.memberValues.flatMap (Lindenmayer.forms NamedAction.record.names))

theorem forms_bare (n : Node) : forms n.bare = (forms n).map Form.bare := by
  simp [forms, List.flatMap_map, List.map_flatMap, Lindenmayer.forms_bare, Production.forms_bare]

theorem forms_known {n : Node} {c : SystemConfig} (h : decode n = .ok c) :
    ∀ f ∈ forms n, f.Known := by
  intro f hf
  simp only [forms, List.mem_append, List.mem_flatMap] at hf
  rcases hf with (hf | ⟨m, hm, v, hv, hf⟩) | ⟨m, hm, v, hv, hf⟩
  · exact Lindenmayer.forms_known rfl h f hf
  · have hr := table_eq_ok ((Record.partOf_of_decode record_parts.1 h).reads_part m hm)
    obtain ⟨p, hp⟩ := hr.reads_values v hv
    exact Production.forms_known hp f hf
  · have hr := table_eq_ok ((Record.partOf_of_decode record_parts.2 h).reads_part m hm)
    obtain ⟨a, ha⟩ := hr.reads_values v hv
    exact Lindenmayer.forms_known rfl ha f hf

end SystemConfig

namespace DrawConfig

def forms (n : Node) : List Form :=
  Lindenmayer.forms record.names n ++ (record.part "iterations" n).flatMap Passes.forms

theorem forms_bare (n : Node) : forms n.bare = (forms n).map Form.bare := by
  simp [forms, List.flatMap_map, List.map_flatMap, Lindenmayer.forms_bare, Passes.forms]

theorem forms_known {n : Node} {d : DrawConfig} (h : decode n = .ok d) :
    ∀ f ∈ forms n, f.Known := by
  intro f hf
  simp only [forms, List.mem_append, List.mem_flatMap] at hf
  rcases hf with hf | ⟨m, hm, hf⟩
  · exact Lindenmayer.forms_known rfl h f hf
  · exact Passes.forms_known ((Record.partOf_of_decode record_parts.1 h).reads_part m hm) f hf

/-- The nodes of the decorations. -/
def hooks (n : Node) : List Node := (record.part "hooks" n).flatMap Node.items

end DrawConfig

namespace DecorationConfig

/-- The fields of a decoration of a kind, its tag among them. -/
def fields (d : DecorationConfig) : List String :=
  "hook" :: match d with
    | .wheel _ => wheelRecord.names
    | .table _ => tableRecord.names
    | .taper _ => taperRecord.names

theorem findTag_only {names : List String} (hn : "hook" ∈ names) {ms : Members}
    {tag? : Option Tag} {tag : Tag} (h : findTag ms tag? = .ok tag) :
    findTag (ms.only names) tag? = .ok tag := by
  induction ms generalizing tag? with
  | closed => exact h
  | member _ key _ value rest ih =>
    rw [Members.only]
    by_cases hk : key = "hook"
    · subst hk
      rw [if_pos hn]
      cases tag? with
      | some t => cases h
      | none =>
        obtain ⟨t, ht, h⟩ := bind_eq_ok.mp h
        exact bind_eq_ok.mpr ⟨t, within_eq_ok.mpr (within_eq_ok.mp ht), ih h⟩
    · obtain ⟨hv, h⟩ := (findTag_other hk).mp h
      split
      · exact (findTag_other hk).mpr ⟨hv, ih h⟩
      · exact ih h
  | stuck => exact h

theorem withoutTag_only (names : List String) (ms : Members) :
    withoutTag (ms.only names) = (withoutTag ms).only names := by
  induction ms with
  | closed | stuck => rfl
  | member _ key _ _ _ ih =>
    by_cases hk : key = "hook"
    · subst hk
      by_cases hn : "hook" ∈ names <;> simp [Members.only, withoutTag, hn, ih]
    · by_cases hn : key ∈ names <;> simp [Members.only, withoutTag, hn, ih]

theorem ofTag_only {tag : Tag} {start : Place} {ms : Members} {d : DecorationConfig}
    (h : ofTag tag (.object start ms) = .ok d) :
    ofTag tag (.object start (ms.only d.fields)) = .ok d := by
  cases tag <;>
  · obtain ⟨a, ha, rfl⟩ := map_eq_ok.mp h
    exact map_eq_ok.mpr ⟨a, Record.ofMembers_only (List.subset_cons_self _ _) ha, rfl⟩

/-- A decoration is decoded as if it had no other members than its fields. -/
theorem decode_only {n : Node} {d : DecorationConfig} (h : decode n = .ok d) :
    decode (n.only d.fields) = .ok d := by
  cases n with
  | object start ms =>
    obtain ⟨tag, ht, ho⟩ := bind_eq_ok.mp h
    refine bind_eq_ok.mpr ⟨tag, findTag_only List.mem_cons_self ht, ?_⟩
    rw [withoutTag_only]
    exact unplaced_eq_ok.mpr (ofTag_only (unplaced_eq_ok.mp ho))
  | _ => exact h

end DecorationConfig

namespace Preset

def forms (n : Node) : List Form :=
  Lindenmayer.forms record.names n ++ (record.part "lsystem" n).flatMap SystemConfig.forms ++
    (record.part "draw" n).flatMap DrawConfig.forms ++
    (record.part "style" n).flatMap (Lindenmayer.forms Style.record.names)

/-- The objects of a document that have fields, but for those of decorations. -/
def documentForms (root : Node) : List Form := root.memberValues.flatMap forms

/-- The nodes of the decorations of a document. -/
def documentHooks (root : Node) : List Node :=
  root.memberValues.flatMap fun p => (record.part "draw" p).flatMap DrawConfig.hooks

theorem documentForms_bare (root : Node) :
    documentForms root.bare = (documentForms root).map Form.bare := by
  simp [documentForms, forms, List.flatMap_map, List.map_flatMap, Lindenmayer.forms_bare,
    SystemConfig.forms_bare, DrawConfig.forms_bare]

theorem forms_known {n : Node} {p : Preset} (h : decode n = .ok p) :
    ∀ f ∈ forms n, f.Known := by
  intro f hf
  simp only [forms, List.mem_append, List.mem_flatMap] at hf
  obtain ⟨hs, hd, ht⟩ := record_parts
  rcases hf with ((hf | ⟨m, hm, hf⟩) | ⟨m, hm, hf⟩) | ⟨m, hm, hf⟩
  · exact Lindenmayer.forms_known rfl h f hf
  · exact SystemConfig.forms_known ((Record.partOf_of_decode hs h).reads_part m hm) f hf
  · exact DrawConfig.forms_known ((Record.partOf_of_decode hd h).reads_part m hm) f hf
  · have hm := (Record.partOf_of_decode ht h).reads_part m hm
    exact Lindenmayer.forms_known rfl hm f hf

theorem hooks_decoded {n : Node} {p : Preset} (h : decode n = .ok p) :
    ∀ m ∈ (record.part "draw" n).flatMap DrawConfig.hooks,
      ∃ d, DecorationConfig.decode m = .ok d := by
  intro m hm
  simp only [DrawConfig.hooks, List.mem_flatMap] at hm
  obtain ⟨draw, hd, hooks, hh, hm⟩ := hm
  have hd := (Record.partOf_of_decode record_parts.2.1 h).reads_part draw hd
  have hh := (Record.partOf_of_decode DrawConfig.record_parts.2 hd).reads_part hooks hh
  exact (list_eq_ok hh).reads_items m hm

/-- A document with a member that is no field of its object is refused, wherever the object stands,
unless it is that of a decoration. A decoration is decoded as if it had its fields only, so that any
other member of it is passed over. -/
theorem load_fields (text : String) :
    (∀ root, root.IsDocument text → (∃ f ∈ documentForms root, ¬ f.Known) →
      ∃ f, load text = .error f ∧ f.kind = .invalidConfig) ∧
    ∀ presets, load text = .ok presets → ∀ n ∈ documentHooks (read text).root,
      ∃ d, DecorationConfig.decode n = .ok d ∧
        DecorationConfig.decode (n.only d.fields) = .ok d := by
  refine ⟨fun root => ?_, fun presets h n hn => ?_⟩
  · refine load_refused (fun n => ∃ f ∈ documentForms n, ¬ f.Known) ?_ ?_
    · intro n
      simp only [documentForms_bare, List.mem_map, exists_exists_and_eq_and, Form.known_bare]
    · rintro presets h ⟨f, hf, hk⟩
      obtain ⟨m, hm, hf⟩ := List.mem_flatMap.mp hf
      obtain ⟨p, hp⟩ := (table_eq_ok (of_load h).2).reads_values m hm
      exact hk (forms_known hp f hf)
  · obtain ⟨m, hm, hn⟩ := List.mem_flatMap.mp hn
    obtain ⟨p, hp⟩ := (table_eq_ok (of_load h).2).reads_values m hm
    obtain ⟨d, hd⟩ := hooks_decoded hp n hn
    exact ⟨d, hd, DecorationConfig.decode_only hd⟩

/-- A misspelt member of a decoration is accepted, and what it would have set has its default. A
misspelt member of the preset around it is refused. -/
theorem load_fields_misspelt :
    let refused := "\x7b\"a\": \x7b\"lsystem\": [\"F\"], \"daw\": 0\x7d\x7d"
    let accepted := "\x7b\"a\": [[\"F\", \x7b\x7d, 90], [1, 5, 0, [0, 0], null, true, " ++
      "[\x7b\"hook\": \"tree_width\", \"max_levle\": 3\x7d]]]\x7d"
    (∃ f, load refused = .error f ∧ f.kind = .invalidConfig) ∧
    ∃ presets, load accepted = .ok presets ∧ ∀ n ∈ documentHooks (read accepted).root,
      ∃ d, DecorationConfig.decode n = .ok d ∧
        DecorationConfig.decode (n.only d.fields) = .ok d := by
  intro refused accepted
  obtain ⟨_, ht⟩ := ok_of_isOk (x := (read refused).tail) (by decide +kernel)
  have hr : (read refused).root.IsDocument refused :=
    read_isDocument (Option.isNone_iff_eq_none.mp (by decide +kernel)) ht
  obtain ⟨presets, hl⟩ := ok_of_isOk (x := load accepted) (by decide +kernel)
  refine ⟨(load_fields refused).1 _ hr ?_, presets, hl, (load_fields accepted).2 presets hl⟩
  unfold Form.Known
  decide +kernel

/-- A member that is a field of no decoration is in a decoration of a document that is accepted. -/
theorem load_unknown_member :
    let text := "\x7b\"x\":\x7b\"lsystem\":\x7b\"start\":\"F\",\"angle\":90\x7d,\"draw\":" ++
      "\x7b\"iterations\":1,\"hooks\":[\x7b\"hook\":\"tree_width\",\"max_levle\":3\x7d]\x7d\x7d\x7d"
    (read text).root.IsDocument text ∧ (∃ presets, load text = .ok presets) ∧
      ∃ n ∈ documentHooks (read text).root, ∃ ms ∈ n.objects,
        ∃ key ∈ ms.keys, ∀ d : DecorationConfig, key ∉ d.fields := by
  intro text
  obtain ⟨presets, hl⟩ := ok_of_isOk (x := load text) (by decide +kernel)
  have hn (d : DecorationConfig) : "max_levle" ∉ d.fields := by
    cases d <;> simp [DecorationConfig.fields, Record.names, DecorationConfig.wheelRecord,
      DecorationConfig.tableRecord, DecorationConfig.taperRecord, Slot.must, Slot.may]
  have hm : ∃ n ∈ documentHooks (read text).root, ∃ ms ∈ n.objects, "max_levle" ∈ ms.keys := by
    decide +kernel
  obtain ⟨n, hn', ms, hms, hk⟩ := hm
  exact ⟨(of_load hl).1, ⟨presets, hl⟩, n, hn', ms, hms, _, hk, hn⟩

end Preset
end Lindenmayer
