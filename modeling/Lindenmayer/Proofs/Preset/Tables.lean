import Lindenmayer.Proofs.Preset.Documents

/-! The tables of preset documents: the presets, the rules and actions of a system, and the colours
of a decoration. None of their members is lost or overwritten. -/
namespace Lindenmayer
open Json

namespace DecorationConfig

/-- The objects that give the colours of a decoration. -/
def tables (n : Node) : List Members :=
  (tagged n).flatMap fun t =>
    if t.1.string? = some "colour_table" then (tableRecord.part "table" t.2).flatMap Node.objects
    else []

/-- A decoration is decoded from a node, and its colours, if it is a table of them, are those of
the one object that gives any. -/
def Described (n : Node) (d : DecorationConfig) : Prop :=
  decode n = .ok d ∧ ∀ t, d = .table t → ∃ tag body m, tagged n = [(tag, body)] ∧
    tableRecord.part "table" body = [m] ∧ TableOf (Rgb.decode .ahead · = .ok ·) m t

theorem described_of_decode {n : Node} {d : DecorationConfig} (h : decode n = .ok d) :
    Described n d := by
  refine ⟨h, ?_⟩
  rintro t rfl
  obtain ⟨tagNode, body, tag, hn, -, ho, -⟩ := decode_eq_ok h
  obtain ⟨-, ht⟩ := ofTag_table ho
  obtain ⟨m, hm, hd⟩ := Record.part_of_required hasPart_table (by decide) ht
  exact ⟨tagNode, body, m, hn, hm, table_eq_ok hd⟩

theorem tables_bare (n : Node) : tables n.bare = (tables n).map Members.bare := by
  simp [tables, List.flatMap_map, List.map_flatMap, apply_ite (List.map Members.bare)]

theorem Tag.eq_table {n : Node} {tag : Tag} (h : Tag.decode n = .ok tag)
    (hs : n.string? = some "colour_table") : tag = .table := by
  cases n with
  | text s =>
    cases Option.some.inj hs
    cases h
    rfl
  | _ => cases hs

theorem Described.keys_nodup {n : Node} {d : DecorationConfig} (h : Described n d) :
    ∀ ms ∈ tables n, ms.keys.Nodup := by
  obtain ⟨hd, ht⟩ := h
  obtain ⟨tagNode, body, tag, hn, htag, ho, -⟩ := decode_eq_ok hd
  intro ms hms
  simp only [tables, hn, List.flatMap_singleton] at hms
  split at hms
  · next hs =>
    cases Tag.eq_table htag hs
    obtain ⟨t, -, rfl⟩ := map_eq_ok.mp ho
    obtain ⟨_, _, m, hn', hm, ht⟩ := ht t rfl
    cases hn.symm.trans hn'
    rw [hm, List.flatMap_singleton] at hms
    exact ht.keys_nodup ms hms
  · cases hms

end DecorationConfig

namespace SystemConfig

def tables (n : Node) : List Members :=
  (record.part "rules" n).flatMap Node.objects ++ (record.part "actions" n).flatMap Node.objects

/-- A system is decoded from a node, and its rules and its actions are those of the objects that
give them, if there are any. -/
def Described (n : Node) (c : SystemConfig) : Prop :=
  decode n = .ok c ∧
    record.PartOf "rules" (TableOf (Production.decode · = .ok ·)) [] n c.rules ∧
    record.PartOf "actions" (TableOf (NamedAction.decode · = .ok ·)) [] n c.actions

theorem described_of_decode {n : Node} {c : SystemConfig} (h : decode n = .ok c) :
    Described n c :=
  ⟨h, (Record.partOf_of_decode record_parts.1 h).imp fun _ _ => table_eq_ok,
    (Record.partOf_of_decode record_parts.2 h).imp fun _ _ => table_eq_ok⟩

theorem tables_bare (n : Node) : tables n.bare = (tables n).map Members.bare := by
  simp [tables, List.flatMap_map, List.map_flatMap]

theorem Described.keys_nodup {n : Node} {c : SystemConfig} (h : Described n c) :
    ∀ ms ∈ tables n, ms.keys.Nodup := by
  obtain ⟨-, hr, ha⟩ := h
  intro ms hms
  simp only [tables, List.mem_append, List.mem_flatMap] at hms
  rcases hms with ⟨m, hm, hms⟩ | ⟨m, hm, hms⟩
  · exact (hr.reads_part m hm).keys_nodup ms hms
  · exact (ha.reads_part m hm).keys_nodup ms hms

end SystemConfig

namespace DrawConfig

def tables (n : Node) : List Members :=
  (record.part "hooks" n).flatMap fun hooks => hooks.items.flatMap DecorationConfig.tables

/-- A plan is decoded from a node, and its decorations, if there are any, from the items of a
list. -/
def Described (n : Node) (d : DrawConfig) : Prop :=
  decode n = .ok d ∧ record.PartOf "hooks" (ListOf DecorationConfig.Described) [] n d.decorations

theorem described_of_decode {n : Node} {d : DrawConfig} (h : decode n = .ok d) :
    Described n d :=
  ⟨h, (Record.partOf_of_decode record_parts.2 h).imp fun _ _ hm =>
    (list_eq_ok hm).imp fun _ _ => DecorationConfig.described_of_decode⟩

theorem tables_bare (n : Node) : tables n.bare = (tables n).map Members.bare := by
  simp [tables, List.flatMap_map, List.map_flatMap, DecorationConfig.tables_bare]

theorem Described.keys_nodup {n : Node} {d : DrawConfig} (h : Described n d) :
    ∀ ms ∈ tables n, ms.keys.Nodup := by
  intro ms hms
  simp only [tables, List.mem_flatMap] at hms
  obtain ⟨hooks, hh, m, hm, hms⟩ := hms
  obtain ⟨a, ha⟩ := (h.2.reads_part hooks hh).reads_items m hm
  exact ha.keys_nodup ms hms

end DrawConfig

namespace Preset

def tables (n : Node) : List Members :=
  (record.part "lsystem" n).flatMap SystemConfig.tables ++
    (record.part "draw" n).flatMap DrawConfig.tables

/-- A preset is decoded from a node, and so are the tables in it. -/
def Described (n : Node) (p : Preset) : Prop :=
  decode n = .ok p ∧
    (∃ m, record.part "lsystem" n = [m] ∧ SystemConfig.Described m p.system) ∧
    record.PartOf "draw" DrawConfig.Described .standard n p.draw

theorem described_of_decode {n : Node} {p : Preset} (h : decode n = .ok p) : Described n p := by
  obtain ⟨m, hm, hd⟩ := Record.part_of_required record_parts.1 (by decide) h
  exact ⟨h, ⟨m, hm, SystemConfig.described_of_decode hd⟩,
    (Record.partOf_of_decode record_parts.2.1 h).imp fun _ _ => DrawConfig.described_of_decode⟩

theorem tables_bare (n : Node) : tables n.bare = (tables n).map Members.bare := by
  simp [tables, List.flatMap_map, List.map_flatMap, SystemConfig.tables_bare,
    DrawConfig.tables_bare]

theorem Described.keys_nodup {n : Node} {p : Preset} (h : Described n p) :
    ∀ ms ∈ tables n, ms.keys.Nodup := by
  obtain ⟨-, ⟨m, hm, hs⟩, hd⟩ := h
  intro ms hms
  simp only [tables, hm, List.flatMap_singleton, List.mem_append, List.mem_flatMap] at hms
  rcases hms with hms | ⟨d, hdm, hms⟩
  · exact hs.keys_nodup ms hms
  · exact (hd.reads_part d hdm).keys_nodup ms hms

end Preset
end Lindenmayer
