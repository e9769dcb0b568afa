import JvmDecompiler.Proofs.ByteGrammar
import JvmDecompiler.Proofs.References

/-!
# The grammar of class files

What bytes are the file of a class: the magic number and the version, then the counted lists of
constants, interfaces, fields, methods and attributes, each part by its own grammar, and nothing behind
them. Reading accepts exactly these files, if their version is supported and their indices lead to what
they have to lead to (`ClassFile.read_eq_ok_iff`).

Reading goes in two passes, and so do the proofs. The layout is read first, with attributes as bare bytes;
a reader is shown to read a grammar part by part. Then the attributes are interpreted, and with code the
attributes nested in it. The grammar and the checks see nothing of the second pass, since it leaves the
names and the bytes of attributes alone.
-/

namespace JvmDecompiler

open Reader

/-! ## Constants -/

/-- The bytes of a constant: its tag and what the tag calls for. The text of a constant does not
determine its spelling, so any spelling that reads as the text will do. -/
def Constant.grammar : Grammar Constant
  | .utf8 text, bytes => ∃ spelling : Bytes, spelling.length < 2 ^ 16 ∧
      ModifiedUtf8.decode spelling = text ∧
      bytes = 1 :: Bytes.ofU2 spelling.length.toUInt16 ++ spelling
  | .integer value, bytes => bytes = 3 :: Bytes.ofU4 value.toUInt32
  | .float bits, bytes => bytes = 4 :: Bytes.ofU4 bits
  | .long value, bytes => bytes = 5 :: Bytes.ofU8 value.toUInt64
  | .double bits, bytes => bytes = 6 :: Bytes.ofU8 bits
  | .classRef name, bytes => bytes = 7 :: Bytes.ofU2 name
  | .string text, bytes => bytes = 8 :: Bytes.ofU2 text
  | .fieldref owner pair, bytes => bytes = 9 :: Bytes.ofU2 owner ++ Bytes.ofU2 pair
  | .methodref owner pair, bytes => bytes = 10 :: Bytes.ofU2 owner ++ Bytes.ofU2 pair
  | .interfaceMethodref owner pair, bytes => bytes = 11 :: Bytes.ofU2 owner ++ Bytes.ofU2 pair
  | .nameAndType name descriptor, bytes => bytes = 12 :: Bytes.ofU2 name ++ Bytes.ofU2 descriptor
  | .methodHandle kind reference, bytes => bytes = 15 :: kind :: Bytes.ofU2 reference
  | .methodType descriptor, bytes => bytes = 16 :: Bytes.ofU2 descriptor
  | .dynamic bootstrap pair, bytes => bytes = 17 :: Bytes.ofU2 bootstrap ++ Bytes.ofU2 pair
  | .invokeDynamic bootstrap pair, bytes => bytes = 18 :: Bytes.ofU2 bootstrap ++ Bytes.ofU2 pair
  | .moduleRef name, bytes => bytes = 19 :: Bytes.ofU2 name
  | .packageRef name, bytes => bytes = 20 :: Bytes.ofU2 name

namespace Reader

variable {α : Type} {L : Grammar α}

/-- A reader that reports another fault reads the same. -/
theorem Reads.asAlternative {r : Reader α} (hr : Reads r L) : Reads (asAlternative r) L := by
  intro input a rest
  rw [← hr input a rest, Reader.asAlternative]
  rcases r input with fault | result
  · exact ⟨nofun, nofun⟩
  · rfl

/-- One number of two bytes, as a value. -/
theorem reads_ofU2 (make : UInt16 → α) :
    Reads (do return make (← u2)) fun a bytes => ∃ n, a = make n ∧ bytes = Bytes.ofU2 n :=
  reads_u2.map make

/-- Two numbers of two bytes, as a value. -/
theorem reads_ofU2U2 (make : UInt16 → UInt16 → α) :
    Reads (do return make (← u2) (← u2)) fun a bytes =>
      ∃ m n, a = make m n ∧ bytes = Bytes.ofU2 m ++ Bytes.ofU2 n := by
  refine (reads_u2.seq fun m => reads_u2.map (make m)).congr fun a bytes => ?_
  constructor
  · rintro ⟨m, _, ⟨n, rfl, rfl⟩, rfl⟩
    exact ⟨m, n, rfl, rfl⟩
  · rintro ⟨m, n, rfl, rfl⟩
    exact ⟨m, _, ⟨n, rfl, rfl⟩, rfl⟩

end Reader

/-- A text is read from any spelling of it behind its length. -/
theorem reads_utf8 : Reads (do
      let length ← u2
      return Constant.utf8 (ModifiedUtf8.decode (← take length.toNat))) fun c bytes =>
    ∃ spelling : Bytes, spelling.length < 2 ^ 16 ∧ c = Constant.utf8 (ModifiedUtf8.decode spelling) ∧
      bytes = Bytes.ofU2 spelling.length.toUInt16 ++ spelling := by
  refine (reads_u2.seq fun length => (reads_take length.toNat).map fun spelling =>
    Constant.utf8 (ModifiedUtf8.decode spelling)).congr fun c bytes => ?_
  constructor
  · rintro ⟨length, spelling, ⟨_, rfl, hlength, rfl⟩, rfl⟩
    have hcount : spelling.length.toUInt16 = length := by simp [hlength]
    exact ⟨spelling, hlength ▸ length.toNat_lt, rfl, by rw [hcount]⟩
  · rintro ⟨spelling, hlength, rfl, rfl⟩
    exact ⟨_, spelling, ⟨spelling, rfl, (UInt16.toNat_ofNat_of_lt' hlength).symm, rfl⟩, rfl⟩

/-- Behind its tag, a constant is read by what the tag calls for. -/
theorem Constant.reads_readContent (tag : UInt8) :
    Reads (readContent tag) fun c bytes => c.grammar (tag :: bytes) := by
  unfold readContent
  split
  case h_1 =>
    refine reads_utf8.congr fun c bytes => ?_
    cases c <;> simp [grammar]
    exact exists_congr fun _ => and_congr_right fun _ => and_congr_left fun _ => eq_comm
  case h_2 => exact (reads_s4.map integer).congr fun c bytes => by cases c <;> simp [grammar]
  case h_3 => exact (reads_u4.map float).congr fun c bytes => by cases c <;> simp [grammar]
  case h_4 =>
    refine (reads_u8.map fun n => long n.toInt64).congr fun c bytes => ?_
    cases c <;> simp [grammar]
    exact ⟨fun ⟨n, hvalue, hbytes⟩ => hvalue ▸ hbytes, fun hbytes => ⟨_, rfl, hbytes⟩⟩
  case h_5 => exact (reads_u8.map double).congr fun c bytes => by cases c <;> simp [grammar]
  case h_6 | h_7 | h_13 | h_16 | h_17 =>
    exact (reads_ofU2 _).congr fun c bytes => by cases c <;> simp [grammar]
  case h_8 | h_9 | h_10 | h_11 | h_14 | h_15 =>
    exact (reads_ofU2U2 _).congr fun c bytes => by cases c <;> simp [grammar, and_assoc]
  case h_12 =>
    refine (reads_u1.bind fun kind => reads_ofU2 (methodHandle kind)).congr fun c bytes => ?_
    cases c <;> simp [grammar]
  case h_18 =>
    -- no constant has another tag
    refine (reads_fail _).congr fun c bytes => ?_
    cases c <;> simp [grammar] <;> grind

/-- Constants are read by their grammar. -/
theorem Constant.reads_read : Reads Constant.read Constant.grammar := by
  refine (reads_u1.bind fun tag => (reads_readContent tag).asAlternative).congr fun c bytes => ?_
  constructor
  · rintro ⟨tag, _, back, rfl, hback, rfl⟩
    exact hback
  · intro h
    obtain ⟨tag, back, rfl⟩ : ∃ tag back, bytes = tag :: back := by
      cases c <;> simp only [grammar] at h <;> first
        | exact ⟨_, _, h⟩
        | exact ⟨_, _, h.choose_spec.2.2⟩
    exact ⟨tag, [tag], back, rfl, h, rfl⟩

/-! ## Pools -/

/-- The bytes of constants that fill `n` slots. A wide constant takes two of them; where only one is
left, the second is cut off. -/
inductive ConstantPool.SlotsGrammar : (n : Nat) → Grammar (List (Option Constant))
  | nil : SlotsGrammar 0 [] []
  | single {n c slots front back} (hwide : c.isWide = false) (first : c.grammar front)
    (others : SlotsGrammar n slots back) : SlotsGrammar (n + 1) (some c :: slots) (front ++ back)
  | wide {n c slots front back} (hwide : c.isWide = true) (first : c.grammar front)
    (others : SlotsGrammar n slots back) :
    SlotsGrammar (n + 2) (some c :: none :: slots) (front ++ back)
  | cut {c bytes} (hwide : c.isWide = true) (first : c.grammar bytes) : SlotsGrammar 1 [some c] bytes

/-- The bytes of a pool of `count` slots, of which the first is not used and takes no bytes. -/
def ConstantPool.grammar (count : UInt16) : Grammar ConstantPool := fun pool bytes =>
  ∃ slots, SlotsGrammar (count.toNat - 1) slots bytes ∧ pool = .ofSlots (none :: slots)

namespace ConstantPool

/-- The slots of a pool are read by their grammar. -/
theorem reads_readSlots (n : Nat) : Reads (readSlots n) (SlotsGrammar n) := by
  -- strong induction, since a wide constant takes two of the slots that are left
  induction n using Nat.strongRecOn with
  | ind n ih =>
    cases n with
    | zero =>
      refine (reads_pure _).congr fun slots bytes => ?_
      constructor
      · rintro ⟨rfl, rfl⟩
        exact .nil
      · intro h
        cases h
        exact ⟨rfl, rfl⟩
    | succ n =>
      unfold readSlots
      refine (Constant.reads_read.bind (M := fun c slots back =>
        (c.isWide = false ∧ ∃ others, slots = some c :: others ∧ SlotsGrammar n others back) ∨
        (c.isWide = true ∧ n = 0 ∧ slots = [some c] ∧ back = []) ∨
        (c.isWide = true ∧ ∃ m others, n = m + 1 ∧ slots = some c :: none :: others ∧
          SlotsGrammar m others back)) fun c => ?_).congr fun slots bytes => ?_
      -- after the constant: a narrow one leaves one slot less, a wide one two less, or none to leave
      · cases hwide : c.isWide with
        | false =>
          exact ((ih n (by omega)).map (some c :: ·)).congr fun slots back => by simp
        | true =>
          cases n with
          | zero => exact (reads_pure _).congr fun slots back => by simp
          | succ n =>
            exact ((ih n (by omega)).map fun others => some c :: none :: others).congr
              fun slots back => by simp
      constructor
      · rintro ⟨c, front, back, hc, ⟨hwide, others, rfl, hothers⟩ | ⟨hwide, rfl, rfl, rfl⟩ |
          ⟨hwide, m, others, rfl, rfl, hothers⟩, rfl⟩
        · exact .single hwide hc hothers
        · exact (List.append_nil front).symm ▸ .cut hwide hc
        · exact .wide hwide hc hothers
      · intro h
        cases h with
        | single hwide hc hothers => exact ⟨_, _, _, hc, .inl ⟨hwide, _, rfl, hothers⟩, rfl⟩
        | wide hwide hc hothers =>
          exact ⟨_, _, _, hc, .inr (.inr ⟨hwide, _, _, rfl, rfl, hothers⟩), rfl⟩
        | cut hwide hc =>
          exact ⟨_, _, _, hc, .inr (.inl ⟨hwide, rfl, rfl, rfl⟩), (List.append_nil _).symm⟩

/-- A pool is read by its grammar. -/
theorem reads_read (count : UInt16) : Reads (ConstantPool.read count) (grammar count) := by
  refine ((reads_readSlots _).map fun slots => ofSlots (none :: slots)).congr fun pool bytes => ?_
  exact exists_congr fun slots => and_comm

end ConstantPool

/-! ## Attributes and members -/

/-- The bytes of an attribute, whatever it is interpreted as: the index of its name, and its content
behind its length. -/
def Attribute.grammar : Grammar Attribute := fun a bytes =>
  ∃ back, Sized a.info back ∧ bytes = Bytes.ofU2 a.name ++ back

/-- The bytes of a field or a method. -/
def Member.grammar : Grammar Member := fun m bytes =>
  ∃ back, Counted Attribute.grammar m.attributes back ∧
    bytes = Bytes.ofU2 m.access ++ Bytes.ofU2 m.name ++ Bytes.ofU2 m.descriptor ++ back

/-- The bytes of a row of an exception table. -/
def ExceptionRow.grammar : Grammar ExceptionRow := fun r bytes =>
  bytes = Bytes.ofU2 r.start ++ Bytes.ofU2 r.stop ++ Bytes.ofU2 r.handler ++ Bytes.ofU2 r.catchType

/-- The bytes of the code of a method. -/
def CodeAttribute.grammar : Grammar CodeAttribute := fun code bytes =>
  ∃ bytecode rows attributes, Sized code.bytecode bytecode ∧
    Counted ExceptionRow.grammar code.exceptionTable rows ∧
    Counted Attribute.grammar code.attributes attributes ∧
    bytes = Bytes.ofU2 code.maxStack ++ Bytes.ofU2 code.maxLocals ++ bytecode ++ rows ++ attributes

/-- An attribute is not interpreted. -/
def Attribute.IsRaw (a : Attribute) : Prop := a.content = none

/-- The attributes of a field or a method are not interpreted. -/
def Member.IsRaw (m : Member) : Prop := ∀ a ∈ m.attributes, a.IsRaw

/-- Attributes are read by their grammar, and not interpreted at first. -/
theorem Attribute.reads_read : Reads Attribute.read fun a bytes => a.IsRaw ∧ a.grammar bytes := by
  refine (reads_u2.seq fun name => Reads.sized fun info =>
    reads_pure (⟨name, info, none⟩ : Attribute)).congr fun a bytes => ?_
  constructor
  · rintro ⟨name, _, ⟨info, front, _, hsized, ⟨rfl, rfl⟩, rfl⟩, rfl⟩
    exact ⟨rfl, front, hsized, by rw [List.append_nil]⟩
  · rintro ⟨hraw, back, hsized, rfl⟩
    obtain ⟨name, info, content⟩ := a
    obtain rfl : content = none := hraw
    exact ⟨name, back, ⟨info, back, [], hsized, ⟨rfl, rfl⟩, (List.append_nil _).symm⟩, rfl⟩

/-- So are the attributes behind their number. -/
theorem Attribute.reads_counted : Reads (counted Attribute.read) fun attributes bytes =>
    (∀ a ∈ attributes, a.IsRaw) ∧ Counted Attribute.grammar attributes bytes :=
  Attribute.reads_read.counted.congr fun _ _ => counted_and_iff

/-- Fields and methods are read by their grammar, with attributes that are not interpreted. -/
theorem Member.reads_read : Reads Member.read fun m bytes => m.IsRaw ∧ m.grammar bytes := by
  refine (reads_u2.seq fun access => reads_u2.seq fun name => reads_u2.seq fun descriptor =>
    Attribute.reads_counted.map (Member.mk access name descriptor)).congr fun m bytes => ?_
  constructor
  · rintro ⟨access, _, ⟨name, _, ⟨descriptor, back, ⟨attributes, rfl, hraw, hrows⟩, rfl⟩, rfl⟩, rfl⟩
    exact ⟨hraw, back, hrows, by simp only [List.append_assoc]⟩
  · rintro ⟨hraw, back, hrows, rfl⟩
    simp only [List.append_assoc]
    exact ⟨_, _, ⟨_, _, ⟨_, _, ⟨_, rfl, hraw, hrows⟩, rfl⟩, rfl⟩, rfl⟩

/-- The rows of an exception table are read by their grammar. -/
theorem ExceptionRow.reads_read : Reads ExceptionRow.read ExceptionRow.grammar := by
  refine (reads_u2.seq fun start => reads_u2.seq fun stop => reads_u2.seq fun handler =>
    reads_u2.map (ExceptionRow.mk start stop handler)).congr fun r bytes => ?_
  constructor
  · rintro ⟨start, _, ⟨stop, _, ⟨handler, _, ⟨catchType, rfl, rfl⟩, rfl⟩, rfl⟩, rfl⟩
    simp only [grammar, List.append_assoc]
  · rintro rfl
    simp only [List.append_assoc]
    exact ⟨_, _, ⟨_, _, ⟨_, _, ⟨_, rfl, rfl⟩, rfl⟩, rfl⟩, rfl⟩

/-- The code of a method is read by its grammar. -/
theorem CodeAttribute.reads_read : Reads CodeAttribute.read fun code bytes =>
    (∀ a ∈ code.attributes, a.IsRaw) ∧ code.grammar bytes := by
  refine (reads_u2.seq fun maxStack => reads_u2.seq fun maxLocals => Reads.sized fun bytecode =>
    ExceptionRow.reads_read.counted.bind fun rows => Attribute.reads_counted.map
      (CodeAttribute.mk maxStack maxLocals bytecode rows)).congr fun code bytes => ?_
  constructor
  · rintro ⟨maxStack, _, ⟨maxLocals, _, ⟨bytecode, _, _, hcode, ⟨rows, _, _, hrows,
      ⟨attributes, rfl, hraw, hattributes⟩, rfl⟩, rfl⟩, rfl⟩, rfl⟩
    exact ⟨hraw, _, _, _, hcode, hrows, hattributes, by simp only [List.append_assoc]⟩
  · rintro ⟨hraw, bytecode, rows, attributes, hcode, hrows, hattributes, rfl⟩
    obtain ⟨maxStack, maxLocals, _, _, _⟩ := code
    simp only [List.append_assoc]
    exact ⟨_, _, ⟨_, _, ⟨_, _, _, hcode, ⟨_, _, _, hrows, ⟨_, rfl, hraw, hattributes⟩, rfl⟩, rfl⟩,
      rfl⟩, rfl⟩

/-! ## Interpreted attributes -/

/-- The attribute as it is read. -/
def Attribute.raw (a : Attribute) : Attribute := { a with content := none }

/-- An attribute that is not interpreted is as it is read. -/
theorem Attribute.IsRaw.raw_eq {a : Attribute} (h : a.IsRaw) : a.raw = a := by
  obtain ⟨name, info, content⟩ := a
  obtain rfl : content = none := h
  rfl

/-- The content of an attribute is what its bytes say under its name, and the same holds of the
attributes nested in it. A name that is not in the pool makes the attribute malformed. -/
inductive Attribute.Interprets (pool : ConstantPool) : Attribute → Prop
  | unnamed {name info} (hname : pool.utf8? name = none) :
    Interprets pool ⟨name, info, some (.malformed s!"#{name}")⟩
  | plain {name info text content} (hname : pool.utf8? name = some text)
    (hcontent : AttributeContent.ofInfo text info = content) (hcode : ∀ code, content ≠ .code code) :
    Interprets pool ⟨name, info, some content⟩
  | code {name info text} {code : CodeAttribute} {nested : List Attribute}
    (hname : pool.utf8? name = some text) (hcontent : AttributeContent.ofInfo text info = .code code)
    (hsame : nested.map raw = code.attributes)
    (hnested : ∀ a ∈ nested, Interprets pool a) :
    Interprets pool ⟨name, info, some (.code { code with attributes := nested })⟩

/-- What is made of a value is found where the value is. -/
theorem map_eq_ok_iff {α β : Type} {r : Reader α} {f : α → β} {input rest : Bytes} {b : β} :
    (f <$> r) input = .ok (b, rest) ↔ ∃ a, f a = b ∧ r input = .ok (a, rest) := by
  show (r input).bind (fun (a, rest) => .ok (f a, rest)) = _ ↔ _
  rcases r input with fault | ⟨a, rest'⟩
  · exact ⟨nofun, fun ⟨_, _, h⟩ => nomatch h⟩
  · simp [Except.bind]

/-- What has the content of code was read as code. -/
theorem CodeAttribute.read_of_ofInfo {name : String} {info : Bytes} {code : CodeAttribute}
    (h : AttributeContent.ofInfo name info = .code code) :
    CodeAttribute.read info = .ok (code, []) := by
  unfold AttributeContent.ofInfo at h
  split at h
  · cases h
  rename_i kind _
  have hread : kind.readContent info = .ok (.code code, []) := by
    unfold Reader.all? at h
    split at h
    · rename_i value hvalue
      exact h ▸ hvalue
    · cases h
  -- only the reader for code gives code
  cases kind with
  | code =>
    obtain ⟨code', hcode, hread⟩ := map_eq_ok_iff.1 hread
    exact AttributeContent.code.inj hcode ▸ hread
  | deprecated | synthetic => cases hread
  | methodParameters =>
    simp only [AttributeKind.readContent, bind, StateT.bind, Except.bind] at hread
    split at hread
    · cases hread
    · obtain ⟨_, hother, -⟩ := map_eq_ok_iff.1 hread
      cases hother
  | _ =>
    obtain ⟨_, hother, -⟩ := map_eq_ok_iff.1 hread
    cases hother

/-- The attributes nested in code are raw, and shorter than the code. -/
theorem CodeAttribute.nested_of_ofInfo {name : String} {info : Bytes} {code : CodeAttribute}
    (h : AttributeContent.ofInfo name info = .code code) :
    ∀ a ∈ code.attributes, a.IsRaw ∧ a.info.length < info.length := by
  obtain ⟨hraw, bytecode, rows, attributes, -, -, ⟨-, nested, hnested, rfl⟩, rfl⟩ :=
    CodeAttribute.reads_read.whole.1 (CodeAttribute.read_of_ofInfo h)
  intro a ha
  obtain ⟨part, ⟨back, ⟨-, rfl⟩, rfl⟩, hle⟩ := hnested.exists_of_mem a ha
  refine ⟨hraw a ha, ?_⟩
  simp only [List.length_append, Bytes.ofU2, Bytes.ofU4, List.length_cons, List.length_nil] at hle ⊢
  omega

namespace Attribute

variable {pool : ConstantPool}

/-- Interpreting goes no deeper than the bytes of an attribute are many. -/
theorem interpretWithin_eq {m n : Nat} {a : Attribute} (hm : a.info.length < m)
    (hn : a.info.length < n) : a.interpretWithin pool m = a.interpretWithin pool n := by
  induction m generalizing n a with
  | zero => cases hm
  | succ m ih =>
    obtain ⟨n, rfl⟩ : ∃ k, n = k + 1 := ⟨n - 1, by omega⟩
    unfold interpretWithin
    dsimp only
    split
    · rfl
    · split
      · rename_i code hcode
        have hnested : code.attributes.map (interpretWithin pool m) =
            code.attributes.map (interpretWithin pool n) := by
          refine List.map_congr_left fun b hb => ?_
          obtain ⟨-, hlt⟩ := CodeAttribute.nested_of_ofInfo hcode b hb
          exact ih (by omega) (by omega)
        rw [hnested]
      · rfl

/-- An attribute without a name in the pool is malformed. -/
theorem interpret_of_unnamed {a : Attribute} (h : pool.utf8? a.name = none) :
    a.interpret pool = { a with content := some (.malformed s!"#{a.name}") } := by
  simp only [interpret, interpretWithin, h]

/-- An attribute other than code is what its bytes say under its name. -/
theorem interpret_of_plain {a : Attribute} {name : String} (h : pool.utf8? a.name = some name)
    (hplain : ∀ code, AttributeContent.ofInfo name a.info ≠ .code code) :
    a.interpret pool = { a with content := some (AttributeContent.ofInfo name a.info) } := by
  simp only [interpret, interpretWithin, h]

/-- Interpreting code interprets the attributes nested in it. -/
theorem interpret_of_code {a : Attribute} {name : String} {code : CodeAttribute}
    (h : pool.utf8? a.name = some name) (hcode : AttributeContent.ofInfo name a.info = .code code) :
    a.interpret pool = { a with
      content := some (.code { code with attributes := code.attributes.map (interpret pool) }) } := by
  have hnested : code.attributes.map (interpretWithin pool a.info.length) =
      code.attributes.map (interpret pool) := by
    refine List.map_congr_left fun b hb => ?_
    obtain ⟨-, hlt⟩ := CodeAttribute.nested_of_ofInfo hcode b hb
    exact interpretWithin_eq hlt (Nat.lt_succ_self _)
  simp only [interpret, interpretWithin, h, hcode, hnested]

/-- What an attribute is interpreted as does not change its bytes. -/
theorem raw_interpret (a : Attribute) : (a.interpret pool).raw = a.raw := rfl

/-- Interpreting an attribute gives what its bytes say. -/
theorem interprets_interpret (a : Attribute) : (a.interpret pool).Interprets pool := by
  induction hn : a.info.length using Nat.strongRecOn generalizing a with
  | ind n ih =>
    rcases hname : pool.utf8? a.name with _ | name
    · rw [interpret_of_unnamed hname]
      exact .unnamed hname
    by_cases hcode : ∃ code, AttributeContent.ofInfo name a.info = .code code
    · obtain ⟨code, hcode⟩ := hcode
      rw [interpret_of_code hname hcode]
      have hnested := CodeAttribute.nested_of_ofInfo hcode
      refine .code hname hcode ?_ fun b hb => ?_
      · rw [List.map_map]
        exact (List.map_congr_left fun b hb => (hnested b hb).1.raw_eq).trans (List.map_id _)
      · obtain ⟨c, hc, rfl⟩ := List.mem_map.1 hb
        exact ih _ (hn ▸ (hnested c hc).2) c rfl
    · have hplain := not_exists.1 hcode
      rw [interpret_of_plain hname hplain]
      exact .plain hname rfl hplain

/-- An attribute that is interpreted is what interpreting makes of its raw form. -/
theorem Interprets.interpret_eq {a : Attribute} (h : a.Interprets pool) :
    interpret pool a.raw = a := by
  induction h with
  | unnamed hname => exact interpret_of_unnamed hname
  | plain hname hcontent hcode =>
    subst hcontent
    exact interpret_of_plain hname hcode
  | @code name info text code nested hname hcontent hsame hnested ih =>
    have hattributes : code.attributes.map (interpret pool) = nested := by
      rw [← hsame, List.map_map]
      exact (List.map_congr_left ih).trans (List.map_id _)
    rw [raw, interpret_of_code (a := ⟨name, info, none⟩) hname hcontent, hattributes]

end Attribute

/-! ## Classes -/

namespace Member

/-- The field or method with its attributes changed. -/
def mapAttributes (f : Attribute → Attribute) (m : Member) : Member :=
  { m with attributes := m.attributes.map f }

/-- The indices of a field or a method lead to texts. -/
structure Resolved (pool : ConstantPool) (m : Member) : Prop where
  name : pool.LeadsTo m.name .utf8
  descriptor : pool.LeadsTo m.descriptor .utf8
  attributes : ∀ a ∈ m.attributes, pool.LeadsTo a.name .utf8

end Member

namespace ClassFile

/-- The bytes of a class file behind its version, whatever its attributes are interpreted as. -/
def bodyGrammar : Grammar ClassFile := fun c bytes =>
  ∃ pool interfaces fields methods attributes,
    ConstantPool.grammar c.poolCount c.pool pool ∧
    Counted (fun i bytes => bytes = Bytes.ofU2 i) c.interfaces interfaces ∧
    Counted Member.grammar c.fields fields ∧ Counted Member.grammar c.methods methods ∧
    Counted Attribute.grammar c.attributes attributes ∧
    bytes = Bytes.ofU2 c.poolCount ++ pool ++ Bytes.ofU2 c.access ++ Bytes.ofU2 c.thisClass ++
      Bytes.ofU2 c.superClass ++ interfaces ++ fields ++ methods ++ attributes

/-- The bytes of a class file: the magic number, the version, and what is behind it. -/
def grammar : Grammar ClassFile := fun c bytes =>
  ∃ body, c.bodyGrammar body ∧
    bytes = [0xCA, 0xFE, 0xBA, 0xBE] ++ Bytes.ofU2 c.minor ++ Bytes.ofU2 c.major ++ body

/-- Every index in the pool, the header, the members and the names of attributes leads to a constant of
the right kind. -/
structure Resolved (c : ClassFile) : Prop where
  pool : c.pool.Closed
  thisClass : c.pool.LeadsTo c.thisClass .classRef
  superClass : c.superClass ≠ 0 → c.pool.LeadsTo c.superClass .classRef
  interfaces : ∀ i ∈ c.interfaces, c.pool.LeadsTo i .classRef
  fields : ∀ m ∈ c.fields, m.Resolved c.pool
  methods : ∀ m ∈ c.methods, m.Resolved c.pool
  attributes : ∀ a ∈ c.attributes, c.pool.LeadsTo a.name .utf8

/-- Every attribute of the class and its members is interpreted. -/
structure Interpreted (c : ClassFile) : Prop where
  fields : ∀ m ∈ c.fields, ∀ a ∈ m.attributes, a.Interprets c.pool
  methods : ∀ m ∈ c.methods, ∀ a ∈ m.attributes, a.Interprets c.pool
  attributes : ∀ a ∈ c.attributes, a.Interprets c.pool

/-- The class with the attributes of itself and its members changed. -/
def mapAttributes (f : Attribute → Attribute) (c : ClassFile) : ClassFile :=
  { c with
    fields := c.fields.map (Member.mapAttributes f)
    methods := c.methods.map (Member.mapAttributes f)
    attributes := c.attributes.map f }

/-- No attribute of the class and its members is interpreted. -/
structure IsRaw (c : ClassFile) : Prop where
  fields : ∀ m ∈ c.fields, m.IsRaw
  methods : ∀ m ∈ c.methods, m.IsRaw
  attributes : ∀ a ∈ c.attributes, a.IsRaw

/-- Behind its version a class file is read by its grammar. -/
theorem reads_readBody (minor major : UInt16) : Reads (readBody minor major) fun c bytes =>
    c.minor = minor ∧ c.major = major ∧ c.IsRaw ∧ c.bodyGrammar bytes := by
  -- members of a class keep their attributes raw, which is a part of what is read
  have hmembers : Reads (counted Member.read) fun members bytes =>
      (∀ m ∈ members, m.IsRaw) ∧ Counted Member.grammar members bytes :=
    Member.reads_read.counted.congr fun _ _ => counted_and_iff
  refine (reads_u2.seq fun poolCount => (ConstantPool.reads_read poolCount).bind fun pool =>
    reads_u2.seq fun access => reads_u2.seq fun thisClass => reads_u2.seq fun superClass =>
    reads_u2.counted.bind fun interfaces => hmembers.bind fun fields => hmembers.bind fun methods =>
    Attribute.reads_counted.map (ClassFile.mk minor major poolCount pool access thisClass superClass
      interfaces fields methods)).congr fun c bytes => ?_
  constructor
  · rintro ⟨poolCount, _, ⟨pool, poolBytes, _, hpool, ⟨access, _, ⟨thisClass, _, ⟨superClass, _,
      ⟨interfaces, interfaceBytes, _, hinterfaces, ⟨fields, fieldBytes, _, ⟨hrawFields, hfields⟩,
      ⟨methods, methodBytes, _, ⟨hrawMethods, hmethods⟩, ⟨attributes, rfl, hraw, hattributes⟩, rfl⟩,
      rfl⟩, rfl⟩, rfl⟩, rfl⟩, rfl⟩, rfl⟩, rfl⟩
    exact ⟨rfl, rfl, ⟨hrawFields, hrawMethods, hraw⟩, _, _, _, _, _, hpool, hinterfaces, hfields,
      hmethods, hattributes, by simp only [List.append_assoc]⟩
  · rintro ⟨rfl, rfl, ⟨hrawFields, hrawMethods, hraw⟩, pool, interfaces, fields, methods, attributes,
      hpool, hinterfaces, hfields, hmethods, hattributes, rfl⟩
    simp only [List.append_assoc]
    exact ⟨_, _, ⟨_, _, _, hpool, ⟨_, _, ⟨_, _, ⟨_, _, ⟨_, _, _, hinterfaces, ⟨_, _, _,
      ⟨hrawFields, hfields⟩, ⟨_, _, _, ⟨hrawMethods, hmethods⟩, ⟨_, rfl, hraw, hattributes⟩, rfl⟩,
      rfl⟩, rfl⟩, rfl⟩, rfl⟩, rfl⟩, rfl⟩, rfl⟩

/-- A layout is read if the bytes are those of a class of a version that is supported, and what is read
is that class before its attributes are interpreted. -/
theorem readLayout_eq_ok_iff {bytes : Bytes} {c : ClassFile} :
    readLayout bytes = .ok c ↔ c.IsRaw ∧ c.grammar bytes ∧ isSupported c.major c.minor := by
  have hversion := reads_ofU2U2 fun (minor major : UInt16) => (minor, major)
  constructor
  · intro h
    simp only [readLayout, bind, Except.bind, pure, Except.pure, throw, throwThe,
      MonadExceptOf.throw] at h
    split at h
    · cases h
    rename_i hmagic
    split at h
    · cases h
    rename_i minor major rest hheader
    split at h
    · cases h
    rename_i hsupported
    split at h
    · cases h
    · cases h
    · rename_i c' hbody
      cases h
      obtain ⟨_, ⟨m, n, hmn, rfl⟩, hdrop⟩ := (hversion _ _ _).1 hheader
      obtain ⟨rfl, rfl⟩ := Prod.mk.inj hmn
      obtain ⟨rfl, rfl, hraw, hrest⟩ := (reads_readBody _ _).whole.1 hbody
      refine ⟨hraw, ⟨rest, hrest, ?_⟩, by simpa using hsupported⟩
      have htake : bytes.take 4 = magic := by simpa using hmagic
      rw [← List.take_append_drop 4 bytes, htake, hdrop]
      simp only [magic, List.append_assoc]
    · cases h
  · rintro ⟨hraw, ⟨body, hbody, rfl⟩, hsupported⟩
    have hread := (reads_readBody c.minor c.major).whole.2 ⟨rfl, rfl, hraw, hbody⟩
    have hheader := (hversion (Bytes.ofU2 c.minor ++ Bytes.ofU2 c.major ++ body) _ _).2
      ⟨_, ⟨c.minor, c.major, rfl, rfl⟩, rfl⟩
    have htake : ∀ rest : Bytes, ([0xCA, 0xFE, 0xBA, 0xBE] ++ rest).take 4 = magic := fun _ => rfl
    have hdrop : ∀ rest : Bytes, ([0xCA, 0xFE, 0xBA, 0xBE] ++ rest).drop 4 = rest := fun _ => rfl
    simp only [readLayout, List.append_assoc, htake, hdrop] at hheader ⊢
    rw [hheader]
    simp [hread, hsupported, pure, Except.pure]

/-- One check behind another. -/
theorem bind_eq_ok_iff {ε : Type} {x : Except ε Unit} {y : Except ε Unit} :
    (x >>= fun _ => y) = .ok () ↔ x = .ok () ∧ y = .ok () := by
  rcases x with e | u
  · exact ⟨nofun, fun h => nomatch h.1⟩
  · exact ⟨fun h => ⟨rfl, h⟩, fun h => h.2⟩

/-- A field or a method passes the check exactly if its indices lead to texts. -/
theorem checkMember_eq_ok_iff {pool : ConstantPool} {source : String} {m : Member} :
    checkMember pool source m = .ok () ↔ m.Resolved pool := by
  simp only [checkMember, checkAttributeNames, bind_eq_ok_iff, forM_eq_ok_iff,
    ConstantPool.checkTarget_eq_ok_iff]
  constructor
  · rintro ⟨hname, hdescriptor, hattributes⟩
    exact ⟨hname, hdescriptor, hattributes⟩
  · intro h
    exact ⟨h.name, h.descriptor, h.attributes⟩

/-- The positions in a list do not matter to what holds of its elements. -/
theorem forall_mem_zipIdx_iff {α : Type} {xs : List α} {P : α → Prop} :
    (∀ x ∈ xs.zipIdx, P x.1) ↔ ∀ x ∈ xs, P x := by
  constructor
  · intro h x hx
    obtain ⟨i, hi⟩ := List.mem_iff_getElem?.1 hx
    exact h (x, i) (List.mk_mem_zipIdx_iff_getElem?.2 hi)
  · intro h x hx
    exact h x.1 (List.mem_of_getElem? (List.mem_zipIdx_iff_getElem?.1 hx))

/-- The references of a class are accepted if they lead to what they have to lead to. -/
theorem checks_eq_ok_iff {c : ClassFile} :
    c.pool.validate = .ok () ∧ c.checkReferences = .ok () ↔ c.Resolved := by
  have hresolved : c.Resolved ↔ c.pool.Closed ∧ c.pool.LeadsTo c.thisClass .classRef ∧
      (c.superClass ≠ 0 → c.pool.LeadsTo c.superClass .classRef) ∧
      (∀ i ∈ c.interfaces, c.pool.LeadsTo i .classRef) ∧ (∀ m ∈ c.fields, m.Resolved c.pool) ∧
        (∀ m ∈ c.methods, m.Resolved c.pool) ∧ ∀ a ∈ c.attributes, c.pool.LeadsTo a.name .utf8 := by
    constructor
    · intro h
      exact ⟨h.pool, h.thisClass, h.superClass, h.interfaces, h.fields, h.methods, h.attributes⟩
    · rintro ⟨hpool, hthis, hsuper, hinterfaces, hfields, hmethods, hattributes⟩
      exact ⟨hpool, hthis, hsuper, hinterfaces, hfields, hmethods, hattributes⟩
  rw [ConstantPool.validate_eq_ok_iff, checkReferences, bind_eq_ok_iff,
    ConstantPool.checkTarget_eq_ok_iff, hresolved]
  by_cases hsuper : c.superClass = 0
  · rw [if_neg (not_not.2 hsuper)]
    simp only [bind_eq_ok_iff, checkMember_eq_ok_iff, checkAttributeNames, forM_eq_ok_iff,
      forall_mem_zipIdx_iff, ConstantPool.checkTarget_eq_ok_iff]
    simp [hsuper]
  · rw [if_pos hsuper]
    simp only [bind_eq_ok_iff, checkMember_eq_ok_iff, checkAttributeNames, forM_eq_ok_iff,
      forall_mem_zipIdx_iff, ConstantPool.checkTarget_eq_ok_iff]
    simp [hsuper]

end ClassFile

/-! ## What is the same before and after attributes are interpreted -/

section Content

variable {f : Attribute → Attribute} (hf : ∀ a, (f a).raw = a.raw)
include hf

/-- The bytes of an attribute do not depend on what it is interpreted as. -/
theorem Attribute.grammar_content {a : Attribute} {bytes : Bytes} :
    (f a).grammar bytes ↔ a.grammar bytes := by
  obtain ⟨hname, hinfo⟩ : (f a).name = a.name ∧ (f a).info = a.info := by
    exact ⟨(Attribute.mk.inj (hf a)).1, (Attribute.mk.inj (hf a)).2.1⟩
  simp only [grammar, hname, hinfo]

/-- Nor do those of a field or a method. -/
theorem Member.grammar_mapAttributes {m : Member} {bytes : Bytes} :
    (m.mapAttributes f).grammar bytes ↔ m.grammar bytes := by
  simp only [grammar, mapAttributes,
    counted_map_iff (L := Attribute.grammar) fun _ _ => Attribute.grammar_content hf]

/-- Nor do those of a class. -/
theorem ClassFile.grammar_mapAttributes {c : ClassFile} {bytes : Bytes} :
    (c.mapAttributes f).grammar bytes ↔ c.grammar bytes := by
  simp only [grammar, bodyGrammar, mapAttributes,
    counted_map_iff (L := Attribute.grammar) fun _ _ => Attribute.grammar_content hf,
    counted_map_iff (L := Member.grammar) fun _ _ => Member.grammar_mapAttributes hf]

/-- Nor do the names of some attributes. -/
theorem leadsTo_map_iff {pool : ConstantPool} {as : List Attribute} :
    (∀ a ∈ as.map f, pool.LeadsTo a.name .utf8) ↔ ∀ a ∈ as, pool.LeadsTo a.name .utf8 := by
  have hname : ∀ a, (f a).name = a.name := fun a => (Attribute.mk.inj (hf a)).1
  simp only [List.forall_mem_map, hname]

/-- The indices of a member lead to the same texts whatever its attributes are interpreted as. -/
theorem Member.resolved_mapAttributes {pool : ConstantPool} {m : Member} :
    (m.mapAttributes f).Resolved pool ↔ m.Resolved pool :=
  ⟨fun h => ⟨h.name, h.descriptor, (leadsTo_map_iff hf).1 h.attributes⟩,
    fun h => ⟨h.name, h.descriptor, (leadsTo_map_iff hf).2 h.attributes⟩⟩

/-- The same of all indices of a class. -/
theorem ClassFile.resolved_mapAttributes {c : ClassFile} :
    (c.mapAttributes f).Resolved ↔ c.Resolved := by
  have hmembers : ∀ ms : List Member, (∀ m ∈ ms.map (Member.mapAttributes f), m.Resolved c.pool) ↔
      ∀ m ∈ ms, m.Resolved c.pool := fun ms => by
    simp only [List.forall_mem_map, Member.resolved_mapAttributes hf]
  constructor
  · intro h
    exact ⟨h.pool, h.thisClass, h.superClass, h.interfaces, (hmembers _).1 h.fields,
      (hmembers _).1 h.methods, (leadsTo_map_iff hf).1 h.attributes⟩
  · intro h
    exact ⟨h.pool, h.thisClass, h.superClass, h.interfaces, (hmembers _).2 h.fields,
      (hmembers _).2 h.methods, (leadsTo_map_iff hf).2 h.attributes⟩

end Content

/-- An attribute whose content is taken away and read again is the attribute, if its content is what
its bytes say. -/
theorem map_interpret_map_raw {pool : ConstantPool} {as : List Attribute}
    (h : ∀ a ∈ as, a.Interprets pool) : (as.map Attribute.raw).map (Attribute.interpret pool) = as := by
  rw [List.map_map]
  exact (List.map_congr_left fun a ha => (h a ha).interpret_eq).trans (List.map_id _)

namespace ClassFile

/-- Behind the interpretation every attribute is interpreted. -/
theorem interpreted_interpretAttributes (c : ClassFile) : c.interpretAttributes.Interpreted := by
  have hattributes : ∀ as : List Attribute,
      ∀ a ∈ as.map (Attribute.interpret c.pool), a.Interprets c.pool :=
    fun as => List.forall_mem_map.2 fun a _ => a.interprets_interpret
  exact ⟨List.forall_mem_map.2 fun m _ => hattributes _, List.forall_mem_map.2 fun m _ => hattributes _,
    hattributes _⟩

/-- The class as its layout is read. -/
def raw (c : ClassFile) : ClassFile := c.mapAttributes Attribute.raw

/-- A class as it is read has no interpreted attribute. -/
theorem isRaw_raw (c : ClassFile) : c.raw.IsRaw := by
  have hattributes : ∀ as : List Attribute, ∀ a ∈ as.map Attribute.raw, a.IsRaw :=
    fun as => List.forall_mem_map.2 fun a _ => rfl
  exact ⟨List.forall_mem_map.2 fun m _ => hattributes _, List.forall_mem_map.2 fun m _ => hattributes _,
    hattributes _⟩

/-- To forget what attributes are interpreted as and to interpret them again gives the class. -/
theorem Interpreted.interpretAttributes_raw {c : ClassFile} (h : c.Interpreted) :
    c.raw.interpretAttributes = c := by
  have hmembers : ∀ ms : List Member, (∀ m ∈ ms, ∀ a ∈ m.attributes, a.Interprets c.pool) →
      (ms.map (Member.mapAttributes Attribute.raw)).map
        (Member.mapAttributes (Attribute.interpret c.pool)) = ms := by
    intro ms hms
    rw [List.map_map]
    refine (List.map_congr_left fun m hm => ?_).trans (List.map_id _)
    show { m with attributes := (m.attributes.map Attribute.raw).map (Attribute.interpret c.pool) } = m
    rw [map_interpret_map_raw (hms m hm)]
  show { c with
    fields := (c.fields.map (Member.mapAttributes Attribute.raw)).map
      (Member.mapAttributes (Attribute.interpret c.pool))
    methods := (c.methods.map (Member.mapAttributes Attribute.raw)).map
      (Member.mapAttributes (Attribute.interpret c.pool))
    attributes := (c.attributes.map Attribute.raw).map (Attribute.interpret c.pool) } = c
  rw [hmembers _ h.fields, hmembers _ h.methods, map_interpret_map_raw h.attributes]

/-- A class is read if its layout is read and its references are accepted. -/
theorem read_eq_ok_iff_exists {bytes : Bytes} {c : ClassFile} :
    read bytes = .ok c ↔
      ∃ r, readLayout bytes = .ok r ∧ r.Resolved ∧ r.interpretAttributes = c := by
  simp only [← checks_eq_ok_iff]
  constructor
  · intro h
    simp only [read, bind, Except.bind, pure, Except.pure] at h
    split at h
    · cases h
    rename_i r hlayout
    split at h
    · cases h
    rename_i hvalidate
    split at h
    · cases h
    rename_i hreferences
    exact ⟨r, hlayout, ⟨hvalidate, hreferences⟩, Except.ok.inj h⟩
  · rintro ⟨r, hlayout, ⟨hvalidate, hreferences⟩, rfl⟩
    simp only [read, hlayout, hvalidate, hreferences, bind, Except.bind, pure, Except.pure]

/-- A byte string is read as a class exactly if it is the file of the class: it follows the grammar, it
is of a version that is supported, the references of the class lead to what they have to lead to, and
its attributes contain what their bytes say. -/
theorem read_eq_ok_iff (bytes : Bytes) (c : ClassFile) :
    read bytes = .ok c ↔
      c.grammar bytes ∧ isSupported c.major c.minor ∧ c.Resolved ∧ c.Interpreted := by
  rw [read_eq_ok_iff_exists]
  constructor
  · rintro ⟨r, hlayout, hresolved, rfl⟩
    obtain ⟨-, hgrammar, hsupported⟩ := readLayout_eq_ok_iff.1 hlayout
    have hcontent := @Attribute.raw_interpret r.pool
    exact ⟨(grammar_mapAttributes hcontent).2 hgrammar, hsupported,
      (resolved_mapAttributes hcontent).2 hresolved, r.interpreted_interpretAttributes⟩
  · rintro ⟨hgrammar, hsupported, hresolved, hinterpreted⟩
    have hcontent : ∀ a : Attribute, a.raw.raw = a.raw := fun _ => rfl
    exact ⟨c.raw, readLayout_eq_ok_iff.2 ⟨c.isRaw_raw, (grammar_mapAttributes hcontent).2 hgrammar,
      hsupported⟩, (resolved_mapAttributes hcontent).2 hresolved, hinterpreted.interpretAttributes_raw⟩

/-- The file of a class with one method, in whose code an attribute is nested that has no name: its pool
has five constants, and the name is said to be the ninth. -/
def unnamedNested : Bytes :=
  [0xCA, 0xFE, 0xBA, 0xBE, 0, 0, 0, 52, 0, 6,
    1, 0, 1, 0x41, 7, 0, 1, 1, 0, 1, 0x6D, 1, 0, 3, 0x28, 0x29, 0x56, 1, 0, 4, 0x43, 0x6F, 0x64, 0x65,
    0, 0, 0, 2, 0, 0, 0, 0, 0, 0,
    0, 1, 0, 0, 0, 3, 0, 4, 0, 1,
    0, 5, 0, 0, 0, 19, 0, 0, 0, 0, 0, 0, 0, 1, 0xB1, 0, 0, 0, 1, 0, 9, 0, 0, 0, 0,
    0, 0]

/-- The name of an attribute that is nested in code need not be in the pool for the class to be read. -/
theorem read_unnamedNested :
    ∃ c, read unnamedNested = .ok c ∧ ∃ m ∈ c.methods, ∃ a ∈ m.attributes, ∃ code,
      a.content = some (.code code) ∧ ∃ n ∈ code.attributes,
        ¬ c.pool.LeadsTo n.name .utf8 ∧ c.pool.utf8? n.name = none ∧
          n.content = some (.malformed "#9") := by
  refine ⟨_, rfl, _, List.mem_cons_self, _, List.mem_cons_self, _, rfl, _, List.mem_cons_self, ?_, rfl,
    rfl⟩
  rintro ⟨constant, hget, -⟩
  cases hget

end ClassFile

end JvmDecompiler
