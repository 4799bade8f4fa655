import MulticastMesh.Json.Fields
import MulticastMesh.Proofs.Json.Text
/-!
# Values that are kept by their format

A format keeps a value if the value is written so that it can be read as text, and what is written
is decoded to the value again.  Formats are built from those of their parts, and so is the proof
that they keep their values.
-/

namespace MulticastMesh.Json

/-- A value is written within some levels of nesting, and decoded again. -/
structure Keeps {α : Type} (encode : α → Json) (decode : Json → Option α) (room : Nat) (a : α) :
    Prop where
  fits : (encode a).Fits room
  back : decode (encode a) = some a

variable {α β : Type} {encode : α → Json} {decode : Json → Option α} {room n : Nat} {a : α}

/-! ## Numbers and other single values -/

theorem fits_nat (h : n < UInt64.size) : (nat n).Fits room := by
  unfold nat
  rw [Fits]
  exact ⟨rfl, rfl, by simp [Decimal.ofNat], h⟩

theorem natBelow?_nat {bound : Nat} (h : n < bound) : natBelow? bound (nat n) = some n := by
  simp [nat, natBelow?, Decimal.ofNat, Decimal.toNat?, Option.filter, h]

theorem keeps_nat8 (room : Nat) (h : n < UInt8.size) : Keeps nat nat8? room n where
  fits := fits_nat (Nat.lt_trans h (by decide))
  back := natBelow?_nat h

theorem keeps_nat32 (room : Nat) (h : n < UInt32.size) : Keeps nat nat32? room n where
  fits := fits_nat (Nat.lt_trans h (by decide))
  back := natBelow?_nat h

theorem keeps_nat64 (room : Nat) (h : n < UInt64.size) : Keeps nat nat64? room n where
  fits := fits_nat h
  back := natBelow?_nat h

theorem keeps_word (room : Nat) (w : BitVec 32) : Keeps (fun w => nat w.toNat) word? room w := by
  have h := keeps_nat32 room w.isLt
  refine ⟨h.fits, ?_⟩
  simp [word?, h.back]

theorem keeps_bool (room : Nat) (b : Bool) : Keeps bool bool? room b := ⟨by simp [Fits], rfl⟩

theorem keeps_string (room : Nat) (s : String) : Keeps string string? room s :=
  ⟨by simp [Fits], rfl⟩

/-! ## Lists and values that may be missing -/

theorem Keeps.list {l : List α} (h : ∀ a ∈ l, Keeps encode decode room a) :
    Keeps (list encode) (list? decode) (room + 1) l := by
  constructor
  · unfold Json.list
    rw [Fits, itemsFit_iff]
    refine ⟨Nat.succ_pos room, ?_⟩
    simpa using fun a ha => (h a ha).fits
  · unfold Json.list list?
    simp only
    induction l with
    | nil => rfl
    | cons a l ih =>
        obtain ⟨ha, hl⟩ := List.forall_mem_cons.1 h
        simp [ha.back, ih hl]

theorem Keeps.nullable_back (h : Keeps encode decode room a) (hnull : encode a ≠ null) :
    Fields.nullable decode (encode a) = some (some a) := by
  unfold Fields.nullable
  split
  · next hn => exact absurd hn hnull
  · simp [h.back]

theorem Keeps.nullable {a? : Option α} (h : ∀ a ∈ a?, Keeps encode decode room a)
    (hnull : ∀ a, encode a ≠ null) :
    Keeps (option encode) (Fields.nullable decode) room a? := by
  cases a? with
  | none => exact ⟨by simp [Json.option, Fits], rfl⟩
  | some a => exact ⟨(h a rfl).fits, (h a rfl).nullable_back (hnull a)⟩

theorem Keeps.pair {encode' : β → Json} {decode' : Json → Option β} {b : β}
    (ha : Keeps encode decode room a) (hb : Keeps encode' decode' room b) :
    Keeps (fun (a, b) => .array [encode a, encode' b]) (pair? decode decode') (room + 1)
      (a, b) := by
  constructor
  · simp [Fits, ItemsFit, ha.fits, hb.fits]
  · simp [pair?, ha.back, hb.back]

theorem Keeps.map {f : β → α} {g : α → β} {b : β} (h : Keeps encode decode room (f b))
    (hg : g (f b) = b) :
    Keeps (fun b => encode (f b)) (fun j => (decode j).map g) room b where
  fits := h.fits
  back := by simp [h.back, hg]

/-! ## Records -/

theorem fits_object {fields : List (String × Json)} (h : ∀ field ∈ fields, field.2.Fits room) :
    (object fields).Fits (room + 1) := by
  rw [Fits, fieldsFit_iff]
  exact ⟨Nat.succ_pos room, h⟩

theorem eraseDups_of_nodup {l : List String} (h : l.Nodup) : l.eraseDups = l := by
  induction l with
  | nil => rfl
  | cons a l ih =>
      obtain ⟨ha, hl⟩ := List.nodup_cons.1 h
      have hfilter : l.filter (fun b => !b == a) = l := by
        rw [List.filter_eq_self]
        intro b hb
        have hne : b ≠ a := fun heq => ha (heq ▸ hb)
        simpa using hne
      rw [List.eraseDups_cons, hfilter, ih hl]

theorem fields?_object {names : List String} {fields : List (String × Json)}
    (hknown : ∀ field ∈ fields, field.1 ∈ names) (hnodup : (fields.map Prod.fst).Nodup) :
    fields? names (.object fields) = some ⟨false, fields⟩ := by
  have hfilter : fields.filter (fun field => names.contains field.1) = fields := by
    rw [List.filter_eq_self]
    exact fun field hfield => List.contains_iff_mem.2 (hknown field hfield)
  unfold fields?
  simp only [hfilter, eraseDups_of_nodup hnodup, List.length_map, if_true]

@[simp] theorem Fields.find?_nil (positional : Bool) (name : String) :
    Fields.find? ⟨positional, []⟩ name = none := rfl

@[simp] theorem Fields.find?_cons (positional : Bool) (name key : String) (value : Json)
    (rest : List (String × Json)) : Fields.find? ⟨positional, (key, value) :: rest⟩ name =
      if name = key then some value else Fields.find? ⟨positional, rest⟩ name := by
  unfold Fields.find?
  rw [List.lookup_cons]
  split <;> simp_all

mutual

theorem isSupported_of_fits : (j : Json) → {room : Nat} → j.Fits room → j.isSupported = true
  | null, _, _ => rfl
  | bool _, _, _ => rfl
  | number _, _, _ => rfl
  | string _, _, _ => rfl
  | array items, _, h => by
      rw [Fits] at h
      exact itemsSupported_of_fit items h.2
  | object fields, _, h => by
      rw [Fits] at h
      exact fieldsSupported_of_fit fields h.2
  | unsupported, _, h => by simp [Fits] at h

theorem itemsSupported_of_fit : (items : List Json) → {room : Nat} → ItemsFit room items →
    itemsSupported items = true
  | [], _, _ => rfl
  | item :: items, _, h => by
      rw [ItemsFit] at h
      simp [itemsSupported, isSupported_of_fits item h.1, itemsSupported_of_fit items h.2]

theorem fieldsSupported_of_fit : (fields : List (String × Json)) → {room : Nat} →
    FieldsFit room fields → fieldsSupported fields = true
  | [], _, _ => rfl
  | (_, value) :: fields, _, h => by
      rw [FieldsFit] at h
      simp [fieldsSupported, isSupported_of_fits value h.1, fieldsSupported_of_fit fields h.2]

end

variable {tag : String} {names : List String} {fields : List (String × Json)}
  {read : Fields → Option α}

theorem keeps_record (hencode : encode a = .object fields)
    (hdecode : ∀ j, decode j = do let f ← j.fields? names; read f)
    (hfits : ∀ field ∈ fields, field.2.Fits room) (hknown : ∀ field ∈ fields, field.1 ∈ names)
    (hnodup : (fields.map Prod.fst).Nodup) (hread : read ⟨false, fields⟩ = some a) :
    Keeps encode decode (room + 1) a where
  fits := hencode ▸ fits_object hfits
  back := by
    rw [hdecode, hencode, fields?_object hknown hnodup]
    exact hread

theorem tagged?_object
    (hfits : (object (("type", string tag) :: fields)).Fits room)
    (hnames : ∀ field ∈ fields, field.1 ≠ "type") :
    tagged? (.object (("type", string tag) :: fields)) = some (tag, .object fields) := by
  have hnone : fields.filter (fun field => field.1 == "type") = [] := by
    rw [List.filter_eq_nil_iff]
    exact fun field hfield => by simpa using hnames field hfield
  have hall : fields.filter (fun field => field.1 != "type") = fields := by
    rw [List.filter_eq_self]
    exact fun field hfield => by simpa using hnames field hfield
  unfold tagged? splitTag
  rw [if_pos (isSupported_of_fits _ hfits)]
  simp [hnone, hall]

theorem keeps_tagged {kind : String × Json → Option α}
    (hencode : encode a = .object (("type", .string tag) :: fields))
    (hdecode : ∀ j, decode j = do let named ← tagged? j; kind named)
    (hkind : ∀ j, kind (tag, j) = do let f ← j.fields? names; read f)
    (hfits : ∀ field ∈ fields, field.2.Fits room) (hknown : ∀ field ∈ fields, field.1 ∈ names)
    (htype : "type" ∉ names) (hnodup : (fields.map Prod.fst).Nodup)
    (hread : read ⟨false, fields⟩ = some a) : Keeps encode decode (room + 1) a := by
  have hobject : (encode a).Fits (room + 1) := by
    rw [hencode]
    exact fits_object (List.forall_mem_cons.2 ⟨by simp [Fits], hfits⟩)
  refine ⟨hobject, ?_⟩
  rw [hencode] at hobject
  have htagged := tagged?_object hobject fun field hfield heq => htype (heq ▸ hknown field hfield)
  rw [hdecode, hencode, htagged]
  change kind (tag, .object fields) = some a
  rw [hkind, fields?_object hknown hnodup]
  exact hread

end MulticastMesh.Json
