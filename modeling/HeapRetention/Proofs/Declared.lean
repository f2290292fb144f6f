-- The laws of declared types. Under a scheme that follows its declarations, the
-- values of a type are read back from their forms if the values of its parts
-- are. A record is read even without some of its fields, where these have a
-- default. The scheme of every dialect follows its declarations.
import Mathlib
import HeapRetention.Data.Declared
import HeapRetention.Proofs.Lists
import HeapRetention.Proofs.Writing

namespace HeapRetention

/-- The values of a type are written as plain data, from which they are read back. -/
structure Codec.RoundTrips {α : Type} (codec : Codec α) (levels : Nat) : Prop where
  plain : ∀ value, (codec.write value).Plain levels
  read_write : ∀ value, codec.read? (codec.write value) = some value

/-- The values of a variant are read back from their bodies. -/
structure Variant.RoundTrips {α : Type} (variant : Variant α) (levels : Nat) : Prop where
  body : variant.codec.RoundTrips levels
  make : ∀ value body, variant.body? value = some body → variant.make body = value

/-- Names that are words and stay different in every casing. -/
structure DistinctWords (names : List String) : Prop where
  words : ∀ name ∈ names, isWord name = true
  nodup : (names.map lowered).Nodup

namespace Codec.RoundTrips

variable {α β : Type} {codec : Codec α} {levels : Nat}

theorem of_form {form : α → Data} (hform : ∀ value, codec.write value = form value)
    (hplain : ∀ value, (form value).Plain levels)
    (hread : ∀ value, codec.read? (form value) = some value) : codec.RoundTrips levels :=
  ⟨fun value => hform value ▸ hplain value, fun value => hform value ▸ hread value⟩

theorem map (h : codec.RoundTrips levels) {make : α → β} {part : β → α}
    (hmake : ∀ b, make (part b) = b) : (codec.map make part).RoundTrips levels := by
  refine ⟨fun b => h.plain (part b), fun b => ?_⟩
  simp only [Codec.map, h.read_write, Option.map_some, hmake]

/-- A value is read back from its text. -/
theorem decode?_encode {script : Script} (hscript : script.Faithful) (h : codec.RoundTrips levels)
    (hle : levels ≤ 127) (value : α) :
    script.decode? codec (script.encode codec value) = some value := by
  rw [Script.decode?, Script.encode, hscript _ ((h.plain value).mono hle), Option.bind_some,
    h.read_write]

end Codec.RoundTrips

/-! ## Records without some of their fields -/

namespace Data

mutual

/-- Data of which the fields with some names are left out, at every level. -/
def without (leftOut : List String) : Data → Data
  | .record fields => .record (withoutFields leftOut fields)
  | data => data

/-- Fields of which those with some names are left out. -/
def withoutFields (leftOut : List String) : List (Literal × Data) → List (Literal × Data)
  | [] => []
  | (name, value) :: more =>
    if name ∈ leftOut.map .plain then withoutFields leftOut more
    else (name, value.without leftOut) :: withoutFields leftOut more

end

/-- The fields of a record that are not left out. -/
def kept (leftOut : List String) (fields : List (String × Data)) : List (String × Data) :=
  (fields.filter fun field => field.1 ∉ leftOut).map fun (name, value) =>
    (name, value.without leftOut)

theorem without_object (leftOut : List String) (fields : List (String × Data)) :
    (object fields).without leftOut = object (kept leftOut fields) := by
  rw [object, without, object, record.injEq]
  induction fields with
  | nil => rfl
  | cons field more ih =>
    obtain ⟨name, value⟩ := field
    rw [List.map_cons, withoutFields, ih]
    by_cases h : name ∈ leftOut <;> simp [kept, h]

mutual

theorem without_nil : (data : Data) → data.without [] = data
  | .record fields => by rw [without, withoutFields_nil fields]
  | .null | .bool _ | .natural _ | .number _ | .text _ | .list _ => rfl

theorem withoutFields_nil : (fields : List (Literal × Data)) → withoutFields [] fields = fields
  | [] => rfl
  | (name, value) :: more => by
    rw [withoutFields, without_nil value, withoutFields_nil more]
    rfl

end

/-- The names that are kept stand in their order. -/
theorem names_kept (leftOut : List String) (fields : List (String × Data)) :
    ((kept leftOut fields).map Prod.fst).Sublist (fields.map Prod.fst) := by
  rw [kept, List.map_map]
  exact List.filter_sublist.map Prod.fst

theorem plain_without {levels : Nat} {data : Data} (h : data.Plain levels) (leftOut : List String) :
    (data.without leftOut).Plain levels := by
  induction h with
  | null => exact .null
  | bool value => exact .bool value
  | word value => exact .word value
  | string value => exact .string value
  | list h => exact .list h
  | @object _ fields hnames _ ih =>
    rw [without_object]
    refine .object (hnames.sublist (names_kept leftOut fields)) fun field hfield => ?_
    obtain ⟨field, hmem, rfl⟩ := List.mem_map.mp hfield
    exact ih field (List.mem_of_mem_filter hmem)

/-- Nothing is left out of data without records. -/
theorem without_of_plain {data : Data} (h : data.Plain 0) {leftOut : List String} :
    data.without leftOut = data := by
  cases h <;> rfl

section Entries

variable {fields : List (String × Data)} {leftOut : List String} {name : String}

theorem entryOf_kept (hnodup : (fields.map Prod.fst).Nodup) {value : Data}
    (hmem : (name, value) ∈ fields) (hname : name ∉ leftOut) :
    entryOf (kept leftOut fields) name = .given (value.without leftOut) := by
  have hkept : (name, value.without leftOut) ∈ kept leftOut fields :=
    List.mem_map.mpr ⟨(name, value), List.mem_filter.mpr ⟨hmem, by simpa using hname⟩, rfl⟩
  rw [entryOf, find?_key (hnodup.sublist (names_kept leftOut fields)) hkept]

theorem entryOf_leftOut (hname : name ∈ leftOut) : entryOf (kept leftOut fields) name = .absent := by
  have hnone : (kept leftOut fields).find? (fun field => field.1 = name) = none := by
    refine List.find?_eq_none.mpr fun field hfield => ?_
    obtain ⟨field, hmem, rfl⟩ := List.mem_map.mp hfield
    have hkept := (List.mem_filter.mp hmem).2
    rw [decide_eq_true_eq] at hkept ⊢
    exact fun he => hkept (he ▸ hname)
  rw [entryOf, hnone]

end Entries

end Data

namespace Record

/-- All values of the fields are read back from their forms. -/
def RoundTrips (levels : Nat) : {α : Type} → Record α → Prop
  | _, .nil => True
  | _, .cons _ codec more => codec.RoundTrips levels ∧ more.RoundTrips levels

/-- What is read where some fields are left out: of a field that is left out its default, and of
any other the value that its form has without them. -/
def Restores (leftOut : List String) :
    {α : Type} → Record α → (default : Option α) → (value restored : α) → Prop
  | _, .nil, _, _, _ => True
  | _, .cons name codec more, default, value, restored =>
    (if name ∈ leftOut then default.map Prod.fst = some restored.1
      else codec.read? ((codec.write value.1).without leftOut) = some restored.1) ∧
    more.Restores leftOut (default.map Prod.snd) value.2 restored.2

theorem names_forms {α : Type} (fields : Record α) (value : α) :
    (fields.forms value).map Prod.fst = fields.names := by
  induction fields with
  | nil => rfl
  | cons name codec more ih => simp [forms, names, ih]

theorem nodup_single {α : Type} (name : String) (codec : Codec α) :
    (cons name codec .nil).names.Nodup := List.nodup_singleton name

theorem plain_forms {levels : Nat} {α : Type} {fields : Record α} (h : fields.RoundTrips levels)
    (value : α) : ∀ field ∈ fields.forms value, field.2.Plain levels := by
  induction fields with
  | nil => simp [forms]
  | cons name codec more ih =>
    rw [forms, List.forall_mem_cons]
    exact ⟨h.1.plain value.1, ih h.2 value.2⟩

theorem RoundTrips.restores {levels : Nat} {α : Type} {fields : Record α}
    (h : fields.RoundTrips levels) (default : Option α) (value : α) :
    fields.Restores [] default value value := by
  induction fields with
  | nil => trivial
  | cons name codec more ih =>
    refine ⟨?_, ih h.2 (default.map Prod.snd) value.2⟩
    rw [if_neg List.not_mem_nil, Data.without_nil, h.1.read_write]

/-- The fields that are there are collected, with the defaults of those that are left out. -/
theorem collect_of_restores {leftOut : List String} {α : Type} {fields : Record α}
    {default : Option α} {value restored : α}
    (h : fields.Restores leftOut default value restored) {entry : String → Entry}
    (hkept : ∀ name data, (name, data) ∈ fields.forms value → name ∉ leftOut →
      entry name = .given (data.without leftOut))
    (hleftOut : ∀ name ∈ leftOut, entry name = .absent) :
    fields.collect default entry = some restored := by
  induction fields with
  | nil => rfl
  | cons name codec more ih =>
    have hmore := ih h.2 fun other data hmem => hkept other data (List.mem_cons_of_mem _ hmem)
    have hfirst : codec.readEntry? (default.map Prod.fst) (entry name) = some restored.1 := by
      have hfirst := h.1
      split at hfirst
      · next hname => rw [hleftOut name hname, Codec.readEntry?, hfirst, Option.some_or]
      · next hname => rw [hkept name _ List.mem_cons_self hname, Codec.readEntry?, hfirst]
    rw [collect, hfirst, hmore]
    rfl

end Record

/-! ## Forms under a scheme -/

namespace Scheme.FollowsDeclarations

variable {scheme : Scheme} (h : scheme.FollowsDeclarations) {α β : Type} {levels : Nat}

include h

theorem roundTrips_word : scheme.word.RoundTrips levels :=
  .of_form h.write_word .word h.read_word

theorem roundTrips_bool : scheme.bool.RoundTrips levels :=
  .of_form h.write_bool .bool h.read_bool

theorem roundTrips_string : scheme.string.RoundTrips levels :=
  .of_form h.write_string .string h.read_string

theorem roundTrips_option {codec : Codec α} (hcodec : codec.RoundTrips levels)
    (hnull : ∀ value, codec.write value ≠ .null) : (scheme.option codec).RoundTrips levels := by
  refine .of_form (h.write_option codec) (fun value => ?_) fun value => ?_
  · cases value with
    | none => exact .null
    | some value => exact hcodec.plain value
  · cases value with
    | none => exact h.read_null codec
    | some value =>
      rw [Data.ofOption, h.read_option codec _ (hnull value), hcodec.read_write, Option.map_some]

theorem roundTrips_list {codec : Codec α} (hcodec : codec.RoundTrips levels) :
    (scheme.list codec).RoundTrips (levels + 1) := by
  refine .of_form (h.write_list codec) (fun items => ?_) fun items => ?_
  · refine .list fun item hitem => ?_
    obtain ⟨value, -, rfl⟩ := List.mem_map.mp hitem
    exact hcodec.plain value
  · rw [h.read_list, List.mapM_map]
    exact (mapM_eq_map fun value _ => hcodec.read_write value).trans (congrArg some items.map_id)

theorem roundTrips_transparent {codec : Codec α} (hcodec : codec.RoundTrips levels) {make : α → β}
    {part : β → α} (hmake : ∀ b, make (part b) = b) :
    (scheme.transparent make part codec).RoundTrips levels := by
  refine .of_form (h.write_transparent make part codec) (fun b => hcodec.plain (part b)) fun b => ?_
  rw [h.read_transparent, hcodec.read_write, Option.map_some, hmake]

/-- Different words stay different in every casing, so each is found by its name there. -/
theorem find?_renamed {casing : Casing} {ι : Type*} {l : List ι} {name : ι → String}
    (hnames : DistinctWords (l.map name)) {i : ι} (hmem : i ∈ l) :
    l.find? (fun j => scheme.rename casing (name j) = scheme.rename casing (name i)) = some i := by
  have hnodup : ((l.map name).map (scheme.rename casing)).Nodup := by
    rw [List.map_congr_left fun name hname => h.rename_eq casing name (hnames.words name hname)]
    exact hnames.nodup
  rw [List.map_map] at hnodup
  exact find?_key hnodup hmem

/-- The values of an enumeration of words, each of which names one value. -/
theorem roundTrips_names [DecidableEq α] {casing : Casing} {all : List (String × α)}
    (hnames : DistinctWords (all.map Prod.fst)) (hvalues : (all.map Prod.snd).Nodup)
    (hall : ∀ value, ∃ name, (name, value) ∈ all) : (scheme.names casing all).RoundTrips levels := by
  refine ⟨fun value => ?_, fun value => ?_⟩
  · obtain ⟨name, hmem⟩ := hall value
    rw [h.write_names casing all hvalues _ hmem]
    exact .string _
  · obtain ⟨name, hmem⟩ := hall value
    rw [h.write_names casing all hvalues _ hmem, h.read_names, h.find?_renamed hnames hmem,
      Option.map_some]

/-- A value is written by the first variant that has a body of it. -/
theorem exists_write_tagged (casing : Casing) {all : List (Variant α)} {value : α}
    (hall : ∃ variant ∈ all, (variant.body? value).isSome) :
    ∃ variant ∈ all, ∃ body, variant.body? value = some body ∧
      (scheme.tagged casing all).write value =
        .object [(scheme.rename casing variant.name, variant.codec.write body)] := by
  have hfound : (all.find? fun variant => (variant.body? value).isSome).isSome :=
    List.find?_isSome.mpr hall
  obtain ⟨variant, hfind⟩ := Option.isSome_iff_exists.mp hfound
  obtain ⟨hsome, before, after, rfl, hbefore⟩ := List.find?_eq_some_iff_append.mp hfind
  obtain ⟨body, hbody⟩ := Option.isSome_iff_exists.mp hsome
  refine ⟨variant, by simp, body, hbody, ?_⟩
  apply h.write_tagged casing before after variant value body _ hbody
  intro other hother
  simpa using hbefore other hother

/-- The values of an enumeration of variants, whose names are different words. -/
theorem roundTrips_tagged {casing : Casing} {all : List (Variant α)}
    (hvariants : ∀ variant ∈ all, variant.RoundTrips levels)
    (hnames : DistinctWords (all.map Variant.name))
    (hall : ∀ value, ∃ variant ∈ all, (variant.body? value).isSome) :
    (scheme.tagged casing all).RoundTrips (levels + 1) := by
  refine ⟨fun value => ?_, fun value => ?_⟩
  · obtain ⟨variant, hmem, body, -, hform⟩ := h.exists_write_tagged casing (hall value)
    rw [hform]
    exact .object (by simp) (by simpa using (hvariants variant hmem).body.plain body)
  · obtain ⟨variant, hmem, body, hbody, hform⟩ := h.exists_write_tagged casing (hall value)
    rw [hform, h.read_tagged, h.find?_renamed hnames hmem, Option.bind_some,
      (hvariants variant hmem).body.read_write, Option.map_some,
      (hvariants variant hmem).make value body hbody]

/-- A record of which some fields are left out is read with what is restored. -/
theorem read?_without {fields : Record α} {leftOut : List String} {default : Option α}
    {value restored : α} (hnames : fields.names.Nodup)
    (hfields : fields.Restores leftOut default value restored) :
    (scheme.record default fields).read?
      (((scheme.record default fields).write value).without leftOut) = some restored := by
  rw [← fields.names_forms value] at hnames
  rw [h.write_record, Data.without_object,
    h.read_record default fields _ (hnames.sublist (Data.names_kept leftOut _))]
  exact Record.collect_of_restores hfields (fun _ _ hmem => Data.entryOf_kept hnames hmem)
    fun _ => Data.entryOf_leftOut

theorem roundTrips_record {fields : Record α} (default : Option α) (hnames : fields.names.Nodup)
    (hfields : fields.RoundTrips levels) :
    (scheme.record default fields).RoundTrips (levels + 1) := by
  refine ⟨fun value => ?_, fun value => ?_⟩
  · rw [h.write_record]
    exact .object (fields.names_forms value ▸ hnames) (Record.plain_forms hfields value)
  · have hread := h.read?_without hnames (hfields.restores default value)
    rwa [Data.without_nil] at hread

/-- The values of a record with one field. -/
theorem roundTrips_single {codec : Codec α} (hcodec : codec.RoundTrips levels) (name : String)
    (default : Option (α × Unit)) :
    (scheme.record default (.cons name codec .nil)).RoundTrips (levels + 1) :=
  h.roundTrips_record default (Record.nodup_single name codec) ⟨hcodec, trivial⟩

end Scheme.FollowsDeclarations

/-! ## The scheme of a dialect -/

/-- A word has no further words in it, so both casings change it in the same way. -/
theorem Casing.apply_of_isWord (casing : Casing) {name : String} (h : isWord name = true) :
    casing.apply name = lowered name := by
  cases casing with
  | lowercase => rfl
  | snakeCase =>
    unfold isWord at h
    unfold apply lowered
    split at h
    · cases h
    · next first rest hname =>
      rw [Bool.and_eq_true, List.all_eq_true] at h
      have hrest : rest.flatMap (fun c => if c.isUpper then ['_', c.toLower] else [c.toLower]) =
          rest.map Char.toLower := by
        rw [List.map_eq_flatMap]
        exact List.flatMap_congr fun c hc => if_neg (Char.not_isUpper_of_isLower (h.2 c hc))
      simp only [hname, List.map_cons, hrest]

theorem Data.lookup_object (fields : List (String × Data)) (name : String) :
    lookup (fields.map fun (name, value) => (.plain name, value)) name = entryOf fields name := by
  simp only [lookup, entryOf, List.find?_map, Function.comp_def, Literal.plain.injEq]
  cases fields.find? fun field => field.1 = name <;> rfl

theorem Data.wellNamed_object (names : List String) {fields : List (String × Data)}
    (hnodup : (fields.map Prod.fst).Nodup) :
    wellNamed names (fields.map fun (name, value) => (.plain name, value)) = true := by
  have hcount : ∀ name, (fields.filter fun field => field.1 = name).length ≤ 1 := by
    intro name
    have hcount := List.nodup_iff_count_le_one.mp hnodup name
    rw [List.count, List.countP_map, List.countP_eq_length_filter] at hcount
    simpa [Function.comp_def, beq_eq_decide] using hcount
  simp only [wellNamed, List.filter_map, Function.comp_def, Literal.plain.injEq, List.length_map,
    List.all_map, List.all_eq_true, Bool.and_eq_true, decide_eq_true_eq]
  exact ⟨fun _ _ => trivial, fun name _ => hcount name⟩

/-- A record is the one of its entries. -/
theorem Data.fields?_object (dialect : Dialect) (names : List String)
    {fields : List (String × Data)} (hnodup : (fields.map Prod.fst).Nodup) :
    (object fields).fields? dialect names = some ⟨entryOf fields⟩ := by
  rw [object, fields?, if_pos (wellNamed_object names hnodup)]
  exact congrArg (fun entry => some (Fields.mk entry)) (funext (lookup_object fields))

/-- Every dialect follows the declarations. -/
theorem Dialect.followsDeclarations (dialect : Dialect) :
    dialect.scheme.FollowsDeclarations where
  rename_eq casing name := casing.apply_of_isWord
  write_word _ := rfl
  read_word value := by simp [scheme, Data.word, Data.word?, UInt64.toNat_lt_size]
  write_bool _ := rfl
  read_bool _ := rfl
  write_string _ := rfl
  read_string _ := rfl
  write_option _ _ := rfl
  read_null _ := rfl
  read_option codec data hnull := by
    cases data with
    | null => exact absurd rfl hnull
    | _ => rfl
  write_list _ _ := rfl
  read_list _ _ := rfl
  write_transparent _ _ _ _ := rfl
  read_transparent _ _ _ _ := rfl
  write_names casing all hvalues entry hmem := by
    simp only [scheme]
    rw [find?_key hvalues hmem]
    rfl
  read_names _ _ _ := rfl
  write_tagged casing before after variant value body hbefore hbody := by
    have hnone : before.findSome? (fun variant => (variant.body? value).map fun body =>
        Data.object [(casing.apply variant.name, variant.codec.write body)]) = none :=
      List.findSome?_eq_none_iff.mpr fun other hother =>
        Option.map_eq_none_iff.mpr (Option.isNone_iff_eq_none.mp (hbefore other hother))
    simp [scheme, List.findSome?_append, hnone, hbody]
  read_tagged _ _ _ _ := rfl
  write_record _ _ _ := rfl
  read_record default fields given hnodup := by
    simp only [scheme]
    rw [Data.fields?_object dialect fields.names hnodup, Option.bind_some]

end HeapRetention
