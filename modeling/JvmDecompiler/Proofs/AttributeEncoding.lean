import JvmDecompiler.Proofs.ClassGrammar

/-!
# The encodings of attributes

The bytes of an attribute follow from its content: numbers are written one behind the other, tables
behind the number of their rows, and nested values in place. `AttributeContent.encode` writes them down.
A content has an encoding if its tables fit into their counts (`AttributeContent.Fits`), which are two
bytes wide, but one byte for the parameters of a method and four for bytecode and nested attributes.

Interpreting the bytes of a recognised attribute inverts this: the content is the one whose encoding they
are, and without such a content the attribute is malformed (`AttributeContent.ofInfo_eq_iff_encode`).
Values of annotations are nested without bound. A reader that is bounded by a depth reads the values
within that depth, by induction on the depth, and an encoding is never shorter than its value is deep.
-/

namespace JvmDecompiler

open Reader

/-! ## Tables -/

/-- Values one behind the other, behind their number on two bytes. -/
def Bytes.ofTable {α : Type} (encode : α → Bytes) (as : List α) : Bytes :=
  Bytes.ofU2 as.length.toUInt16 ++ as.flatMap encode

/-- Bytes behind their number on four bytes. -/
def Bytes.ofBlock (content : Bytes) : Bytes := Bytes.ofU4 content.length.toUInt32 ++ content

section Tables

variable {α β : Type} {encode : α → Bytes} {fits : α → Prop}

/-- Values with one spelling each have one spelling in a row. -/
theorem rows_encode_iff {as : List α} {bytes : Bytes} :
    Rows (fun a bytes => bytes = encode a) as bytes ↔ bytes = as.flatMap encode := by
  induction as generalizing bytes with
  | nil =>
    constructor
    · rintro ⟨⟩
      rfl
    · rintro rfl
      exact .nil
  | cons a as ih =>
    constructor
    · rintro (_ | ⟨rfl, hothers⟩)
      rw [ih.1 hothers, List.flatMap_cons]
    · rintro rfl
      exact .cons rfl (ih.2 rfl)

/-- A row is not longer than the table that it is in. -/
theorem length_le_length_ofTable {as : List α} {a : α} (ha : a ∈ as) :
    (encode a).length ≤ (Bytes.ofTable encode as).length := by
  have hsublist : (encode a).Sublist (as.map encode).flatten :=
    List.sublist_flatten_of_mem (List.mem_map_of_mem ha)
  rw [Bytes.ofTable, List.length_append, List.flatMap_def]
  exact hsublist.length_le.trans (Nat.le_add_left _ _)

/-- They have one spelling behind their number, if there are not too many. -/
theorem counted_plain_iff {as : List α} {bytes : Bytes} :
    Counted (fun a bytes => bytes = encode a) as bytes ↔
      as.length < 2 ^ 16 ∧ bytes = Bytes.ofTable encode as := by
  simp only [Counted, rows_encode_iff, Bytes.ofTable, exists_eq_left]

/-- The same of values that have to fit. -/
theorem counted_encode_iff {as : List α} {bytes : Bytes} :
    Counted (fun a bytes => fits a ∧ bytes = encode a) as bytes ↔
      (as.length < 2 ^ 16 ∧ ∀ a ∈ as, fits a) ∧ bytes = Bytes.ofTable encode as := by
  rw [counted_and_iff, counted_plain_iff, ← and_assoc, and_comm (a := ∀ a ∈ as, fits a)]

/-- A table is read from what it is written as. -/
theorem reads_table {item : Reader α} (h : Reads item fun a bytes => fits a ∧ bytes = encode a) :
    Reads (counted item) fun as bytes =>
      (as.length < 2 ^ 16 ∧ ∀ a ∈ as, fits a) ∧ bytes = Bytes.ofTable encode as :=
  h.counted.congr fun _ _ => counted_encode_iff

/-- A table of rows all of which have an encoding. -/
theorem reads_plainTable {item : Reader α} (h : Reads item fun a bytes => bytes = encode a) :
    Reads (counted item) fun as bytes => as.length < 2 ^ 16 ∧ bytes = Bytes.ofTable encode as :=
  h.counted.congr fun _ _ => counted_plain_iff

/-- What is made of a value has the bytes of the value. -/
theorem Reader.Reads.functorMap {r : Reader α} {L : Grammar α} (hr : Reads r L) (f : α → β) :
    Reads (f <$> r) fun b bytes => ∃ a, b = f a ∧ L a bytes := by
  intro input b rest
  rw [map_eq_ok_iff]
  constructor
  · rintro ⟨a, rfl, h⟩
    obtain ⟨front, hfront, rfl⟩ := (hr _ _ _).1 h
    exact ⟨front, ⟨a, rfl, hfront⟩, rfl⟩
  · rintro ⟨front, ⟨a, rfl, hfront⟩, rfl⟩
    exact ⟨a, rfl, (hr _ _ _).2 ⟨front, hfront, rfl⟩⟩

end Tables

/-! ## Rows -/

def ExceptionRow.encode (r : ExceptionRow) : Bytes :=
  Bytes.ofU2 r.start ++ Bytes.ofU2 r.stop ++ Bytes.ofU2 r.handler ++ Bytes.ofU2 r.catchType

def LineRow.encode (r : LineRow) : Bytes := Bytes.ofU2 r.start ++ Bytes.ofU2 r.line

def LocalRow.encode (r : LocalRow) : Bytes :=
  Bytes.ofU2 r.start ++ Bytes.ofU2 r.length ++ Bytes.ofU2 r.name ++ Bytes.ofU2 r.descriptor ++
    Bytes.ofU2 r.slot

def ParameterRow.encode (r : ParameterRow) : Bytes := Bytes.ofU2 r.name ++ Bytes.ofU2 r.flags

/-- The row of a line is read from what it is written as. -/
theorem LineRow.reads_read : Reads LineRow.read fun r bytes => bytes = r.encode := by
  refine (reads_u2.seq fun start => reads_u2.map (LineRow.mk start)).congr fun r bytes => ?_
  constructor
  · rintro ⟨start, _, ⟨line, rfl, rfl⟩, rfl⟩
    rfl
  · rintro rfl
    exact ⟨_, _, ⟨_, rfl, rfl⟩, rfl⟩

/-- So is the row of a variable. -/
theorem LocalRow.reads_read : Reads LocalRow.read fun r bytes => bytes = r.encode := by
  refine (reads_u2.seq fun start => reads_u2.seq fun length => reads_u2.seq fun name =>
    reads_u2.seq fun descriptor => reads_u2.map
      (LocalRow.mk start length name descriptor)).congr fun r bytes => ?_
  constructor
  · rintro ⟨start, _, ⟨length, _, ⟨name, _, ⟨descriptor, _, ⟨slot, rfl, rfl⟩, rfl⟩, rfl⟩, rfl⟩, rfl⟩
    simp only [encode, List.append_assoc]
  · rintro rfl
    simp only [encode, List.append_assoc]
    exact ⟨_, _, ⟨_, _, ⟨_, _, ⟨_, _, ⟨_, rfl, rfl⟩, rfl⟩, rfl⟩, rfl⟩, rfl⟩

/-- So is the row of a parameter. -/
theorem ParameterRow.reads_read : Reads ParameterRow.read fun r bytes => bytes = r.encode := by
  refine (reads_u2.seq fun name => reads_u2.map (ParameterRow.mk name)).congr fun r bytes => ?_
  constructor
  · rintro ⟨name, _, ⟨flags, rfl, rfl⟩, rfl⟩
    rfl
  · rintro rfl
    exact ⟨_, _, ⟨_, rfl, rfl⟩, rfl⟩

/-! ## Code -/

/-- An attribute as it stands in the attributes around it. -/
def Attribute.encode (a : Attribute) : Bytes := Bytes.ofU2 a.name ++ Bytes.ofBlock a.info

def CodeAttribute.encode (code : CodeAttribute) : Bytes :=
  Bytes.ofU2 code.maxStack ++ Bytes.ofU2 code.maxLocals ++ Bytes.ofBlock code.bytecode ++
    Bytes.ofTable ExceptionRow.encode code.exceptionTable ++
    Bytes.ofTable Attribute.encode code.attributes

/-- An attribute that is not interpreted and not too long. -/
def Attribute.Fits (a : Attribute) : Prop := a.IsRaw ∧ a.info.length < 2 ^ 32

/-- The parts of the code fit behind their counts. -/
structure CodeAttribute.Fits (code : CodeAttribute) : Prop where
  bytecode : code.bytecode.length < 2 ^ 32
  exceptionTable : code.exceptionTable.length < 2 ^ 16
  attributes : code.attributes.length < 2 ^ 16
  nested : ∀ a ∈ code.attributes, a.Fits

/-- The bytes of an attribute are what it is written as, if it is not too long. -/
theorem Attribute.grammar_eq :
    Attribute.grammar = fun a bytes => a.info.length < 2 ^ 32 ∧ bytes = a.encode := by
  funext a bytes
  refine propext ⟨?_, ?_⟩
  · rintro ⟨_, ⟨hlength, rfl⟩, rfl⟩
    exact ⟨hlength, rfl⟩
  · rintro ⟨hlength, rfl⟩
    exact ⟨_, ⟨hlength, rfl⟩, rfl⟩

/-- The code of a method is read from what it is written as, if its parts fit. -/
theorem CodeAttribute.reads_encode :
    Reads CodeAttribute.read fun code bytes => code.Fits ∧ bytes = code.encode := by
  refine CodeAttribute.reads_read.congr fun code bytes => ?_
  -- both grammars have the same parts in the same order, and differ in where they say that these fit
  rw [CodeAttribute.grammar, Attribute.grammar_eq]
  constructor
  · rintro ⟨hraw, _, rows, attributes, ⟨hbytecode, rfl⟩, hrows, hattributes, rfl⟩
    obtain ⟨htable, hrows⟩ :=
      (counted_plain_iff : Counted (fun r bytes => bytes = ExceptionRow.encode r) _ _ ↔ _).1 hrows
    obtain ⟨⟨hcount, hnested⟩, hattributes⟩ := counted_encode_iff.1 hattributes
    refine ⟨⟨hbytecode, htable, hcount, fun a ha => ⟨hraw a ha, hnested a ha⟩⟩, ?_⟩
    rw [hrows, hattributes]
    rfl
  · rintro ⟨⟨hbytecode, htable, hattributes, hnested⟩, rfl⟩
    exact ⟨fun a ha => (hnested a ha).1, _, _, _, ⟨hbytecode, rfl⟩,
      counted_plain_iff.2 ⟨htable, rfl⟩,
      counted_encode_iff.2 ⟨⟨hattributes, fun a ha => (hnested a ha).2⟩, rfl⟩, rfl⟩

/-! ## Values of annotations -/

/-- The byte that stands for a kind of constant. -/
def ElementTag.letterByte (tag : ElementTag) : UInt8 := tag.letter.toNat.toUInt8

mutual

def RawAnnotation.encode : RawAnnotation → Bytes
  | ⟨type, elements⟩ =>
    Bytes.ofU2 type ++ (Bytes.ofU2 elements.length.toUInt16 ++ ElementValue.encodeElements elements)

def ElementValue.encode : ElementValue → Bytes
  | .const tag index => tag.letterByte :: Bytes.ofU2 index
  | .enumConst type constant => 0x65 :: (Bytes.ofU2 type ++ Bytes.ofU2 constant)
  | .classInfo descriptor => 0x63 :: Bytes.ofU2 descriptor
  | .nested value => 0x40 :: value.encode
  | .array values => 0x5B :: (Bytes.ofU2 values.length.toUInt16 ++ ElementValue.encodeEach values)

/-- The elements of an annotation, each a name and a value. -/
def ElementValue.encodeElements : List (UInt16 × ElementValue) → Bytes
  | [] => []
  | (name, value) :: elements =>
    Bytes.ofU2 name ++ value.encode ++ ElementValue.encodeElements elements

def ElementValue.encodeEach : List ElementValue → Bytes
  | [] => []
  | value :: values => value.encode ++ ElementValue.encodeEach values

end

mutual

/-- All tables of an annotation, however deeply nested, fit behind their counts. -/
inductive RawAnnotation.Fits : RawAnnotation → Prop
  | intro {type : UInt16} {elements : List (UInt16 × ElementValue)} (hlength : elements.length < 2 ^ 16)
    (hvalues : ∀ element ∈ elements, ElementValue.Fits element.2) : RawAnnotation.Fits ⟨type, elements⟩

/-- All tables of a value, however deeply nested, fit behind their counts. -/
inductive ElementValue.Fits : ElementValue → Prop
  | const (tag : ElementTag) (index : UInt16) : ElementValue.Fits (.const tag index)
  | enumConst (type constant : UInt16) : ElementValue.Fits (.enumConst type constant)
  | classInfo (descriptor : UInt16) : ElementValue.Fits (.classInfo descriptor)
  | nested {value : RawAnnotation} (h : value.Fits) : ElementValue.Fits (.nested value)
  | array {values : List ElementValue} (hlength : values.length < 2 ^ 16)
    (hvalues : ∀ value ∈ values, ElementValue.Fits value) : ElementValue.Fits (.array values)

end

namespace ElementValue

/-- The elements of an annotation are written one behind the other. -/
theorem encodeElements_eq (elements : List (UInt16 × ElementValue)) :
    encodeElements elements = elements.flatMap fun (name, value) => Bytes.ofU2 name ++ value.encode := by
  induction elements with
  | nil => rfl
  | cons element elements ih => rw [encodeElements, ih, List.flatMap_cons]

/-- So are the values of an array. -/
theorem encodeEach_eq (values : List ElementValue) : encodeEach values = values.flatMap encode := by
  induction values with
  | nil => rfl
  | cons value values ih => rw [encodeEach, ih, List.flatMap_cons]

/-- An array is written as a table behind its tag. -/
theorem encode_array (values : List ElementValue) :
    (array values).encode = 0x5B :: Bytes.ofTable encode values := by
  rw [encode, encodeEach_eq, Bytes.ofTable]

/-- An element of an annotation: its name and its value. -/
def encodeElement (element : UInt16 × ElementValue) : Bytes :=
  Bytes.ofU2 element.1 ++ element.2.encode

/-- An annotation is written as a table behind its type. -/
theorem annotationEncode_eq (a : RawAnnotation) :
    a.encode = Bytes.ofU2 a.type ++ Bytes.ofTable encodeElement a.elements := by
  obtain ⟨type, elements⟩ := a
  show _ ++ (_ ++ encodeElements elements) = _
  rw [encodeElements_eq]
  rfl

/-- A value whose tables fit, and in which values are nested at most `depth` deep. -/
def Within : (depth : Nat) → ElementValue → Prop
  | 0, _ => False
  | depth + 1, .nested a => a.elements.length < 2 ^ 16 ∧ ∀ element ∈ a.elements, Within depth element.2
  | depth + 1, .array values => values.length < 2 ^ 16 ∧ ∀ value ∈ values, Within depth value
  | _ + 1, _ => True

/-- An annotation, read with a reader of values. -/
theorem reads_annotationWith {value : Reader ElementValue} {fits : ElementValue → Prop}
    (h : Reads value fun v bytes => fits v ∧ bytes = v.encode) :
    Reads (readAnnotationWith value) fun a bytes =>
      (a.elements.length < 2 ^ 16 ∧ ∀ element ∈ a.elements, fits element.2) ∧ bytes = a.encode := by
  have helement : Reads (do
      let name ← u2
      let value ← value
      return (name, value)) fun element bytes => fits element.2 ∧ bytes = encodeElement element := by
    refine (reads_u2.seq fun name => h.map fun value => (name, value)).congr fun element bytes => ?_
    constructor
    · rintro ⟨name, _, ⟨value, rfl, hfits, rfl⟩, rfl⟩
      exact ⟨hfits, rfl⟩
    · rintro ⟨hfits, rfl⟩
      exact ⟨_, _, ⟨_, rfl, hfits, rfl⟩, rfl⟩
  refine (reads_u2.seq fun type => (reads_table helement).map fun elements =>
    (⟨type, elements⟩ : RawAnnotation)).congr fun a bytes => ?_
  rw [annotationEncode_eq]
  constructor
  · rintro ⟨type, _, ⟨elements, rfl, hfits, rfl⟩, rfl⟩
    exact ⟨hfits, rfl⟩
  · rintro ⟨hfits, rfl⟩
    obtain ⟨type, elements⟩ := a
    exact ⟨_, _, ⟨_, rfl, hfits, rfl⟩, rfl⟩

/-- Behind the tag of a constant its index is read. -/
theorem readWithin_const (depth : Nat) (tag : ElementTag) (input : Bytes) :
    readWithin (depth + 1) (tag.letterByte :: input) =
      (do return const tag (← u2) : Reader ElementValue) input := by
  cases tag <;> rfl

/-- What a value is follows from its first byte. -/
theorem tag_cases (byte : UInt8) : (∃ tag : ElementTag, byte = tag.letterByte) ∨
    byte = 0x65 ∨ byte = 0x63 ∨ byte = 0x40 ∨ byte = 0x5B ∨
    ∀ depth input, readWithin (depth + 1) (byte :: input) = .error .noAlternative := by
  -- the tags of constants are in a table; the other four are compared one after the other
  rcases htag : ElementTag.ofByte? byte with _ | tag
  · by_cases henum : byte = 0x65
    · exact .inr (.inl henum)
    by_cases hclass : byte = 0x63
    · exact .inr (.inr (.inl hclass))
    by_cases hnested : byte = 0x40
    · exact .inr (.inr (.inr (.inl hnested)))
    by_cases harray : byte = 0x5B
    · exact .inr (.inr (.inr (.inr (.inl harray))))
    refine .inr (.inr (.inr (.inr (.inr fun depth input => ?_))))
    have hrun : ∀ f : UInt8 → Reader ElementValue, (u1 >>= f) (byte :: input) = f byte input :=
      fun _ => rfl
    rw [readWithin, hrun, htag]
    dsimp only
    rw [if_neg henum, if_neg hclass, if_neg hnested, if_neg harray]
    rfl
  · have hletter : tag.letter.toNat = byte.toNat := by simpa using List.find?_some htag
    refine .inl ⟨tag, UInt8.toNat_inj.1 ?_⟩
    rw [ElementTag.letterByte, hletter]
    simp

/-- The constant of an enumeration is read from the indices of its type and its name. -/
theorem reads_enumConst : Reads (do
      let type ← u2
      let constant ← u2
      return enumConst type constant) fun v bytes =>
    ∃ type constant, v = .enumConst type constant ∧ bytes = Bytes.ofU2 type ++ Bytes.ofU2 constant := by
  refine (reads_u2.seq fun type => reads_u2.map (enumConst type)).congr fun v bytes => ?_
  constructor
  · rintro ⟨type, _, ⟨constant, rfl, rfl⟩, rfl⟩
    exact ⟨type, constant, rfl, rfl⟩
  · rintro ⟨type, constant, rfl, rfl⟩
    exact ⟨_, _, ⟨_, rfl, rfl⟩, rfl⟩

/-- To a depth that is enough, values are read from what they are written as. -/
theorem reads_readWithin (depth : Nat) :
    Reads (readWithin depth) fun v bytes => v.Within depth ∧ bytes = v.encode := by
  induction depth with
  | zero => exact (reads_fail _).congr fun v bytes => by simp [Within]
  | succ depth ih =>
    have hnested := (reads_annotationWith ih).map nested
    have harray := (reads_table ih).map array
    intro input v rest
    constructor
    · intro h
      rcases input with _ | ⟨byte, input⟩
      · cases h
      rcases tag_cases byte with ⟨tag, rfl⟩ | rfl | rfl | rfl | rfl | hother
      · rw [readWithin_const] at h
        obtain ⟨_, ⟨index, rfl, rfl⟩, rfl⟩ := (reads_u2.map _ _ _ _).1 h
        exact ⟨_, ⟨trivial, rfl⟩, rfl⟩
      · obtain ⟨_, ⟨type, constant, rfl, rfl⟩, rfl⟩ := (reads_enumConst _ _ _).1 h
        exact ⟨_, ⟨trivial, rfl⟩, rfl⟩
      · obtain ⟨_, ⟨index, rfl, rfl⟩, rfl⟩ := (reads_u2.map _ _ _ _).1 h
        exact ⟨_, ⟨trivial, rfl⟩, rfl⟩
      · obtain ⟨_, ⟨value, rfl, hfits, rfl⟩, rfl⟩ := (hnested _ _ _).1 h
        exact ⟨_, ⟨hfits, rfl⟩, rfl⟩
      · obtain ⟨_, ⟨values, rfl, hfits, rfl⟩, rfl⟩ := (harray _ _ _).1 h
        exact ⟨_, ⟨hfits, (encode_array values).symm⟩, rfl⟩
      · rw [hother] at h
        cases h
    · rintro ⟨_, ⟨hwithin, rfl⟩, rfl⟩
      cases v with
      | const tag index =>
        have hread := readWithin_const depth tag (Bytes.ofU2 index ++ rest)
        exact hread.trans ((reads_u2.map _ _ _ _).2 ⟨_, ⟨index, rfl, rfl⟩, rfl⟩)
      | enumConst type constant =>
        exact (reads_enumConst _ _ _).2 ⟨_, ⟨type, constant, rfl, rfl⟩, rfl⟩
      | classInfo descriptor => exact (reads_u2.map _ _ _ _).2 ⟨_, ⟨descriptor, rfl, rfl⟩, rfl⟩
      | nested value => exact (hnested _ _ _).2 ⟨_, ⟨value, rfl, hwithin, rfl⟩, rfl⟩
      | array values =>
        rw [encode_array]
        exact (harray _ _ _).2 ⟨_, ⟨values, rfl, hwithin, rfl⟩, rfl⟩

/-- A value whose tables fit to some depth fits. -/
theorem fits_of_within {depth : Nat} {v : ElementValue} (h : v.Within depth) : v.Fits := by
  induction depth generalizing v with
  | zero => exact h.elim
  | succ depth ih =>
    cases v with
    | const tag index => exact .const tag index
    | enumConst type constant => exact .enumConst type constant
    | classInfo descriptor => exact .classInfo descriptor
    | nested value =>
      obtain ⟨type, elements⟩ := value
      exact .nested (.intro h.1 fun element helement => ih (h.2 element helement))
    | array values => exact .array h.1 fun value hvalue => ih (h.2 value hvalue)

/-- Each level takes a byte at least, so an encoding is not shorter than its value is deep. -/
theorem within_of_fits {depth : Nat} {v : ElementValue} (h : v.Fits) (hle : v.encode.length ≤ depth) :
    v.Within depth := by
  -- on the depth: what is nested is shorter than the whole, so that it fits into one level less
  induction depth generalizing v with
  | zero =>
    cases v <;> simp [encode] at hle
  | succ depth ih =>
    cases h with
    | const | enumConst | classInfo => trivial
    | nested h =>
      obtain ⟨hlength, hvalues⟩ := h
      refine ⟨hlength, fun element helement => ih (hvalues element helement) ?_⟩
      have hrow := @length_le_length_ofTable _ encodeElement _ _ helement
      rw [encode, annotationEncode_eq, List.length_cons, List.length_append] at hle
      rw [encodeElement, List.length_append] at hrow
      omega
    | array hlength hvalues =>
      refine ⟨hlength, fun value hvalue => ih (hvalues value hvalue) ?_⟩
      have hrow := @length_le_length_ofTable _ encode _ _ hvalue
      rw [encode_array, List.length_cons] at hle
      omega

/-- The values that are read are those that fit, however deep they are. -/
theorem read_eq_ok_iff_encode {input rest : Bytes} {v : ElementValue} :
    read input = .ok (v, rest) ↔ v.Fits ∧ input = v.encode ++ rest := by
  rw [read, reads_readWithin]
  constructor
  · rintro ⟨_, ⟨hwithin, rfl⟩, rfl⟩
    exact ⟨fits_of_within hwithin, rfl⟩
  · rintro ⟨hfits, rfl⟩
    refine ⟨_, ⟨within_of_fits hfits ?_, rfl⟩, rfl⟩
    rw [List.length_append]
    omega

/-- Values of any depth are read from what they are written as. -/
theorem reads_read : Reads read fun v bytes => v.Fits ∧ bytes = v.encode := by
  intro input v rest
  rw [read_eq_ok_iff_encode]
  constructor
  · rintro ⟨hfits, rfl⟩
    exact ⟨_, ⟨hfits, rfl⟩, rfl⟩
  · rintro ⟨_, ⟨hfits, rfl⟩, rfl⟩
    exact ⟨hfits, rfl⟩

end ElementValue

/-- An annotation fits if the number and the values of its elements do. -/
theorem RawAnnotation.fits_iff {a : RawAnnotation} :
    a.Fits ↔ a.elements.length < 2 ^ 16 ∧ ∀ element ∈ a.elements, element.2.Fits := by
  constructor
  · rintro ⟨hlength, hvalues⟩
    exact ⟨hlength, hvalues⟩
  · rintro ⟨hlength, hvalues⟩
    obtain ⟨type, elements⟩ := a
    exact .intro hlength hvalues

/-- Annotations are read from what they are written as. -/
theorem RawAnnotation.reads_read : Reads RawAnnotation.read fun a bytes => a.Fits ∧ bytes = a.encode :=
  (ElementValue.reads_annotationWith ElementValue.reads_read).congr fun _ _ =>
    and_congr_left' RawAnnotation.fits_iff.symm

/-! ## Contents -/

namespace AttributeContent

/-- The bytes of an attribute with this content. An unknown content and a malformed one keep no
bytes. -/
def encode : AttributeContent → Bytes
  | .code body => body.encode
  | .lineNumberTable rows => Bytes.ofTable LineRow.encode rows
  | .localVariableTable rows => Bytes.ofTable LocalRow.encode rows
  | .localVariableTypeTable rows => Bytes.ofTable LocalRow.encode rows
  | .exceptions classes => Bytes.ofTable Bytes.ofU2 classes
  | .signature index => Bytes.ofU2 index
  | .deprecated => []
  | .synthetic => []
  | .constantValue index => Bytes.ofU2 index
  | .sourceFile index => Bytes.ofU2 index
  | .methodParameters rows => rows.length.toUInt8 :: rows.flatMap ParameterRow.encode
  | .runtimeVisibleAnnotations annotations => Bytes.ofTable RawAnnotation.encode annotations
  | .runtimeInvisibleAnnotations annotations => Bytes.ofTable RawAnnotation.encode annotations
  | .unknown _ => []
  | .malformed _ => []

/-- A content that attributes of a kind can have: one of that kind whose tables fit. -/
def Fits (kind : AttributeKind) (content : AttributeContent) : Prop :=
  match kind with
  | .code => ∃ body, content = .code body ∧ body.Fits
  | .lineNumberTable => ∃ rows, content = .lineNumberTable rows ∧ rows.length < 2 ^ 16
  | .localVariableTable => ∃ rows, content = .localVariableTable rows ∧ rows.length < 2 ^ 16
  | .localVariableTypeTable => ∃ rows, content = .localVariableTypeTable rows ∧ rows.length < 2 ^ 16
  | .exceptions => ∃ classes, content = .exceptions classes ∧ classes.length < 2 ^ 16
  | .signature => ∃ index, content = .signature index
  | .deprecated => content = .deprecated
  | .synthetic => content = .synthetic
  | .constantValue => ∃ index, content = .constantValue index
  | .sourceFile => ∃ index, content = .sourceFile index
  | .methodParameters => ∃ rows, content = .methodParameters rows ∧ rows.length < 2 ^ 8
  | .runtimeVisibleAnnotations => ∃ annotations, content = .runtimeVisibleAnnotations annotations ∧
      annotations.length < 2 ^ 16 ∧ ∀ a ∈ annotations, a.Fits
  | .runtimeInvisibleAnnotations => ∃ annotations, content = .runtimeInvisibleAnnotations annotations ∧
      annotations.length < 2 ^ 16 ∧ ∀ a ∈ annotations, a.Fits

/-- A content that is made of one value fits and is written as the value is. -/
theorem reads_made {α : Type} {r : Reader α} {fits : α → Prop} {encodeValue : α → Bytes}
    (hr : Reads r fun a bytes => fits a ∧ bytes = encodeValue a) (make : α → AttributeContent)
    (hencode : ∀ a, (make a).encode = encodeValue a) :
    Reads (make <$> r) fun content bytes =>
      (∃ a, content = make a ∧ fits a) ∧ bytes = content.encode := by
  refine (hr.functorMap make).congr fun content bytes => ?_
  constructor
  · rintro ⟨a, rfl, hfits, rfl⟩
    exact ⟨⟨a, rfl, hfits⟩, (hencode a).symm⟩
  · rintro ⟨⟨a, rfl, hfits⟩, rfl⟩
    exact ⟨a, rfl, hfits, hencode a⟩

/-- A content that is an index, which always fits. -/
theorem reads_index (make : UInt16 → AttributeContent)
    (hencode : ∀ index, (make index).encode = Bytes.ofU2 index) :
    Reads (make <$> u2) fun content bytes =>
      (∃ index, content = make index) ∧ bytes = content.encode := by
  refine (reads_u2.functorMap make).congr fun content bytes => ?_
  constructor
  · rintro ⟨index, rfl, rfl⟩
    exact ⟨⟨index, rfl⟩, (hencode index).symm⟩
  · rintro ⟨⟨index, rfl⟩, rfl⟩
    exact ⟨index, rfl, hencode index⟩

/-- The names of parameters are read from what they are written as, behind their number on one byte. -/
theorem reads_parameters : Reads AttributeKind.methodParameters.readContent fun content bytes =>
    content.Fits .methodParameters ∧ bytes = content.encode := by
  refine (reads_u1.seq fun count => (ParameterRow.reads_read.times count.toNat).functorMap
    methodParameters).congr fun content bytes => ?_
  constructor
  · rintro ⟨count, _, ⟨rows, rfl, hlength, hrows⟩, rfl⟩
    obtain rfl := rows_encode_iff.1 hrows
    have hcount : rows.length.toUInt8 = count := by simp [hlength]
    exact ⟨⟨rows, rfl, hlength ▸ count.toNat_lt⟩, by rw [encode, hcount]; rfl⟩
  · rintro ⟨⟨rows, rfl, hlength⟩, rfl⟩
    exact ⟨_, _, ⟨rows, rfl, (UInt8.toNat_ofNat_of_lt' hlength).symm, rows_encode_iff.2 rfl⟩, rfl⟩

/-- The content of every kind of attribute is read from what it is written as. -/
theorem reads_readContent (kind : AttributeKind) :
    Reads kind.readContent fun content bytes => content.Fits kind ∧ bytes = content.encode := by
  cases kind with
  | code => exact reads_made CodeAttribute.reads_encode code fun _ => rfl
  | lineNumberTable =>
    exact reads_made (reads_plainTable LineRow.reads_read) lineNumberTable fun _ => rfl
  | localVariableTable =>
    exact reads_made (reads_plainTable LocalRow.reads_read) localVariableTable fun _ => rfl
  | localVariableTypeTable =>
    exact reads_made (reads_plainTable LocalRow.reads_read) localVariableTypeTable fun _ => rfl
  | exceptions => exact reads_made (reads_plainTable reads_u2) exceptions fun _ => rfl
  | signature => exact reads_index signature fun _ => rfl
  | deprecated => exact (reads_pure deprecated).congr fun content bytes =>
      and_congr_right fun h => by rw [h]; rfl
  | synthetic => exact (reads_pure synthetic).congr fun content bytes =>
      and_congr_right fun h => by rw [h]; rfl
  | constantValue => exact reads_index constantValue fun _ => rfl
  | sourceFile => exact reads_index sourceFile fun _ => rfl
  | methodParameters => exact reads_parameters
  | runtimeVisibleAnnotations =>
    exact reads_made (reads_table RawAnnotation.reads_read) runtimeVisibleAnnotations fun _ => rfl
  | runtimeInvisibleAnnotations =>
    exact reads_made (reads_table RawAnnotation.reads_read) runtimeInvisibleAnnotations fun _ => rfl

/-- A kind of attribute is found by its name. -/
theorem ofName?_name (kind : AttributeKind) : AttributeKind.ofName? kind.name = some kind := by
  cases kind <;> rfl

/-- A reader that has to use up its input reads exactly the byte strings of its grammar. -/
theorem all?_eq_some_iff {α : Type} {r : Reader α} {L : Grammar α} (hr : Reads r L) {input : Bytes}
    {a : α} : r.all? input = some a ↔ L a input := by
  rw [← hr.whole, Reader.all?]
  rcases r input with _ | ⟨_, _ | _⟩ <;> simp

/-- The bytes of a recognised attribute have a content exactly if they are its encoding, and make the
attribute malformed exactly if they are the encoding of no content.
Values of annotations are read off the front of an input exactly if their encoding stands there, however
deeply they are nested. -/
theorem ofInfo_eq_iff_encode :
    (∀ (kind : AttributeKind) (info : Bytes) (content : AttributeContent),
      ofInfo kind.name info = content ↔
        content.Fits kind ∧ info = content.encode ∨
          content = .malformed kind.name ∧
            ∀ other : AttributeContent, other.Fits kind → info ≠ other.encode) ∧
    ∀ (v : ElementValue) (input rest : Bytes),
      ElementValue.read input = .ok (v, rest) ↔ v.Fits ∧ input = v.encode ++ rest := by
  refine ⟨fun kind info content => ?_, fun v input rest => ElementValue.read_eq_ok_iff_encode⟩
  have hcontent : ∀ c, kind.readContent.all? info = some c ↔ c.Fits kind ∧ info = c.encode := fun _ =>
    all?_eq_some_iff (reads_readContent kind)
  have hofInfo : ofInfo kind.name info = (kind.readContent.all? info).getD (.malformed kind.name) := by
    rw [ofInfo, ofName?_name]
  rw [hofInfo]
  rcases hread : kind.readContent.all? info with _ | found
  · constructor
    · rintro rfl
      refine .inr ⟨rfl, fun other hfits hinfo => ?_⟩
      cases hread.symm.trans ((hcontent other).2 ⟨hfits, hinfo⟩)
    · rintro (hcase | ⟨rfl, -⟩)
      · cases hread.symm.trans ((hcontent content).2 hcase)
      · rfl
  · obtain ⟨hfits, hinfo⟩ := (hcontent found).1 hread
    constructor
    · rintro rfl
      exact .inl ⟨hfits, hinfo⟩
    · rintro (hcase | ⟨-, hnone⟩)
      · exact Option.some.inj (hread.symm.trans ((hcontent content).2 hcase))
      · exact absurd hinfo (hnone found hfits)

end AttributeContent

end JvmDecompiler
