-- The laws of written forms. A kind of node, a footprint and settings are read
-- back from their texts, whatever scheme and script they are written by, as
-- long as the scheme follows the declarations and the script is faithful.
-- Settings of which parts are left out are read with the defaults in their
-- place. The documents of this library are written and read in such a way.
import HeapRetention.Forms
import HeapRetention.Json.Dialect
import HeapRetention.Proofs.Declared

namespace HeapRetention

/-! ## Values and their forms -/

section Forms

variable {scheme : Scheme} (h : scheme.FollowsDeclarations)

include h

theorem IdWidth.roundTrips {levels : Nat} : (codec scheme).RoundTrips levels := by
  refine h.roundTrips_names ⟨by decide, by decide⟩ (by decide) fun width => ?_
  cases width <;> simp

theorem ValueType.roundTrips {levels : Nat} : (codec scheme).RoundTrips levels := by
  refine h.roundTrips_names ⟨by decide, by decide⟩ (by decide) fun type => ?_
  cases type <;> simp

theorem NodeId.roundTrips {levels : Nat} : (codec scheme).RoundTrips levels :=
  h.roundTrips_transparent h.roundTrips_word fun _ => rfl

/-- An id is never null, so a class that is known is not taken for one that is not. -/
theorem NodeId.write_ne_null (id : NodeId) : (codec scheme).write id ≠ .null := by
  rw [codec, h.write_transparent, h.write_word]
  nofun

theorem roundTrips_class {levels : Nat} :
    (scheme.option (NodeId.codec scheme)).RoundTrips levels :=
  h.roundTrips_option (NodeId.roundTrips h) (NodeId.write_ne_null h)

theorem roundTrips_array :
    (scheme.record none (arrayFields scheme)).RoundTrips 1 :=
  h.roundTrips_record none (by simp [arrayFields, Record.names])
    ⟨ValueType.roundTrips h, h.roundTrips_word, trivial⟩

/-- A kind of node is read back from its form. -/
theorem NodeKind.roundTrips : (codec scheme).RoundTrips 2 := by
  have hnames : DistinctWords ["Instance", "Class", "Array"] := ⟨by decide, by decide⟩
  refine h.roundTrips_tagged ?_ hnames fun kind => ?_
  · simp only [List.forall_mem_cons]
    refine ⟨⟨h.roundTrips_single (roundTrips_class h) "class" none, ?_⟩,
      ⟨h.roundTrips_single h.roundTrips_string "name" none, ?_⟩,
      ⟨roundTrips_array h, ?_⟩, nofun⟩
    all_goals
      rintro (_ | _ | _) _ ⟨⟩
      rfl
  · cases kind <;> simp

/-- A footprint is read back from its form. -/
theorem Footprint.roundTrips : (codec scheme).RoundTrips 2 := by
  have hnames : DistinctWords ["Bytes", "Fields", "Array"] := ⟨by decide, by decide⟩
  refine h.roundTrips_tagged ?_ hnames fun footprint => ?_
  · simp only [List.forall_mem_cons]
    refine ⟨⟨h.roundTrips_word, ?_⟩, ⟨h.roundTrips_list (ValueType.roundTrips h), ?_⟩,
      ⟨roundTrips_array h, ?_⟩, nofun⟩
    all_goals
      rintro (_ | _ | _) _ ⟨⟩
      rfl
  · cases footprint <;> simp

/-! ## Settings and their form -/

namespace Settings

section Sections

variable {α : Type} {codec : Codec α} (name : String) (default : α)

theorem roundTrips_sectionOf {levels : Nat} (hcodec : codec.RoundTrips levels) :
    (sectionOf scheme name codec default).RoundTrips (levels + 1) :=
  (h.roundTrips_single hcodec name _).map fun _ => rfl

/-- The setting of a section has its default where it is left out. -/
theorem read?_sectionOf_without (hcodec : codec.RoundTrips 0) (leftOut : List String) (value : α) :
    (sectionOf scheme name codec default).read?
        (((sectionOf scheme name codec default).write value).without leftOut) =
      some (if name ∈ leftOut then default else value) := by
  have hfields : (Record.cons name codec .nil).Restores leftOut (some (default, ())) (value, ())
      (if name ∈ leftOut then default else value, ()) := by
    refine ⟨?_, trivial⟩
    split
    · rfl
    · rw [Data.without_of_plain (hcodec.plain value), hcodec.read_write]
  have hread := h.read?_without (Record.nodup_single name codec) hfields
  exact congrArg (Option.map Prod.fst) hread

end Sections

theorem roundTrips_maxPasses {levels : Nat} : (scheme.option scheme.word).RoundTrips levels := by
  refine h.roundTrips_option h.roundTrips_word fun word => ?_
  rw [h.write_word]
  nofun

omit h in
theorem nodup_sections : (sections scheme).names.Nodup :=
  show ["graph", "dominators", "retained"].Nodup by decide

/-- Settings are read back from their form. -/
theorem roundTrips : (codec scheme).RoundTrips 2 := by
  have hsections : (sections scheme).RoundTrips 1 :=
    ⟨roundTrips_sectionOf h "id_size" IdWidth.four (IdWidth.roundTrips h),
      roundTrips_sectionOf h "max_passes" none (roundTrips_maxPasses h),
      roundTrips_sectionOf h "parallel" false h.roundTrips_bool, trivial⟩
  exact (h.roundTrips_record _ nodup_sections hsections).map fun _ => rfl

/-- Settings of which those in some fields, or in sections with these names, have their
defaults. -/
def withDefaults (leftOut : List String) (settings : Settings) : Settings where
  width := if "graph" ∈ leftOut ∨ "id_size" ∈ leftOut then ({} : Settings).width else settings.width
  maxPasses :=
    if "dominators" ∈ leftOut ∨ "max_passes" ∈ leftOut then ({} : Settings).maxPasses
    else settings.maxPasses
  parallel :=
    if "retained" ∈ leftOut ∨ "parallel" ∈ leftOut then ({} : Settings).parallel
    else settings.parallel

theorem restores_sections (leftOut : List String) (settings : Settings) :
    let restored := settings.withDefaults leftOut
    (sections scheme).Restores leftOut (some (.four, none, false, ()))
      (settings.width, settings.maxPasses, settings.parallel, ())
      (restored.width, restored.maxPasses, restored.parallel, ()) := by
  have hwidth := read?_sectionOf_without h "id_size" IdWidth.four (IdWidth.roundTrips h) leftOut
    settings.width
  have hpasses := read?_sectionOf_without h "max_passes" none (roundTrips_maxPasses h) leftOut
    settings.maxPasses
  have hparallel := read?_sectionOf_without h "parallel" false h.roundTrips_bool leftOut
    settings.parallel
  refine ⟨?_, ?_, ?_, trivial⟩ <;> split
  · next hname => simp [withDefaults, hname]
  · next hname => simp [withDefaults, hname, graphCodec, hwidth]
  · next hname => simp [withDefaults, hname]
  · next hname => simp [withDefaults, hname, searchCodec, hpasses]
  · next hname => simp [withDefaults, hname]
  · next hname => simp [withDefaults, hname, retainedCodec, hparallel]

/-- Settings are read from their form with the defaults of what is left out. -/
theorem read?_without (leftOut : List String) (settings : Settings) :
    (codec scheme).read? (((codec scheme).write settings).without leftOut) =
      some (settings.withDefaults leftOut) := by
  have hread := h.read?_without nodup_sections (restores_sections h leftOut settings)
  exact congrArg (Option.map _) hread

end Settings

end Forms

/-! ## The forms of this library -/

section Dialects

variable (dialect : Dialect)

/-- A kind of node is read back from its form in every dialect. -/
theorem NodeKind.ofData?_toData (kind : NodeKind) : ofData? dialect kind.toData = some kind :=
  (NodeKind.roundTrips dialect.followsDeclarations).read_write kind

/-- A footprint is read back from its form in every dialect. -/
theorem Footprint.ofData?_toData (footprint : Footprint) :
    ofData? dialect footprint.toData = some footprint :=
  (Footprint.roundTrips dialect.followsDeclarations).read_write footprint

/-- Settings are read from their form in every dialect, with the defaults of what is left out. -/
theorem Settings.ofData?_without (leftOut : List String) (settings : Settings) :
    ofData? dialect (settings.toData.without leftOut) = some (settings.withDefaults leftOut) :=
  Settings.read?_without dialect.followsDeclarations leftOut settings

end Dialects

/-! ## Texts of values -/

/-- Kinds of nodes, footprints and settings are read back from their texts, and settings of which
some parts are left out are read with the defaults of these parts. -/
theorem Script.written_values_are_read_back {scheme : Scheme} {script : Script}
    (hscheme : scheme.FollowsDeclarations) (hscript : script.Faithful) :
    (∀ kind : NodeKind, script.decode? (NodeKind.codec scheme)
      (script.encode (NodeKind.codec scheme) kind) = some kind) ∧
    (∀ footprint : Footprint, script.decode? (Footprint.codec scheme)
      (script.encode (Footprint.codec scheme) footprint) = some footprint) ∧
    (∀ settings : Settings, script.decode? (Settings.codec scheme)
      (script.encode (Settings.codec scheme) settings) = some settings) ∧
    ∀ (settings : Settings) (leftOut : List String), script.decode? (Settings.codec scheme)
      (script.write (((Settings.codec scheme).write settings).without leftOut)) =
        some (settings.withDefaults leftOut) := by
  have hle : 2 ≤ 127 := by decide
  have hkinds := NodeKind.roundTrips hscheme
  have hfootprints := Footprint.roundTrips hscheme
  have hsettings := Settings.roundTrips hscheme
  refine ⟨hkinds.decode?_encode hscript hle, hfootprints.decode?_encode hscript hle,
    hsettings.decode?_encode hscript hle, fun settings leftOut => ?_⟩
  have hplain := Data.plain_without (hsettings.plain settings) leftOut
  rw [decode?, hscript _ (hplain.mono hle), Option.bind_some, Settings.read?_without hscheme]

/-- A class that is known, a name with a quote in it on many lines, the layout of an array, and
settings of which one section and one setting of another section are left out. -/
theorem Json.documents_give_their_values_back :
    (dialect.scheme.FollowsDeclarations ∧ oneLine.Faithful ∧ manyLines.Faithful) ∧
    oneLine.decode? (NodeKind.codec dialect.scheme)
      "\x7b\"instance\":\x7b\"class\":16\x7d\x7d" = some (.instanceOf (some ⟨16⟩)) ∧
    manyLines.decode? (NodeKind.codec dialect.scheme)
      "\x7b\n  \"class\": \x7b\n    \"name\": \"a\\\"b\"\n  \x7d\n\x7d" =
        some (.classObject "a\"b") ∧
    oneLine.decode? (Footprint.codec dialect.scheme)
      "\x7b\"array\":\x7b\"element\":\"long\",\"length\":3\x7d\x7d" = some (.array .long 3) ∧
    oneLine.decode? (Settings.codec dialect.scheme)
      "\x7b\"graph\":\x7b\"id_size\":\"eight\"\x7d,\"dominators\":\x7b\x7d\x7d" =
        some { width := .eight } := by
  have hscheme := dialect.followsDeclarations
  have hone := Script.written_values_are_read_back hscheme faithful_oneLine
  have hmany := Script.written_values_are_read_back hscheme faithful_manyLines
  have hkind : oneLine.encode (NodeKind.codec dialect.scheme) (.instanceOf (some ⟨16⟩)) =
      "\x7b\"instance\":\x7b\"class\":16\x7d\x7d" := by
    cbv
  have hfootprint : oneLine.encode (Footprint.codec dialect.scheme) (.array .long 3) =
      "\x7b\"array\":\x7b\"element\":\"long\",\"length\":3\x7d\x7d" := by
    cbv
  refine ⟨⟨hscheme, faithful_oneLine, faithful_manyLines⟩, hkind ▸ hone.1 _,
    hmany.1 (.classObject "a\"b"), hfootprint ▸ hone.2.1 _, ?_⟩
  exact hone.2.2.2 { width := .eight, maxPasses := some 3, parallel := true }
    ["max_passes", "retained"]

end HeapRetention
