import JvmDecompiler.Decompilation
import JvmDecompiler.Proofs.ClassGrammar
import JvmDecompiler.Proofs.MethodDescriptors
import JvmDecompiler.Proofs.ModifiedUtf8

/-!
# The slots of parameters

The parameters of a method lie one behind the other, from slot 0 on, or from slot 1 on if an object stands
in front of them. Their slots are counted twice, for the declaration of the method and for the variables of
its body, and both counts are sums on two bytes: `Ty.slotsFrom` and `Ty.slotsEnd`.

Here the slots are counted without a bound (`Ty.slotNumber`). Both counts come to that number modulo `2 ^ 16`,
so they are right for all parameters exactly if the number of the slot behind the last one fits
(`MethodContext.parameter_slots`). Nothing that is checked when a class is read makes it fit: a descriptor can
name more than `2 ^ 15` parameters that take two slots each.
-/

namespace JvmDecompiler

/-! ## Counting slots -/

namespace Ty

/-- The number of the slot behind parameters of the given types, if the first is in slot `first`. -/
def slotNumber (first : Nat) (ts : List Ty) : Nat := first + (ts.map (·.width.toNat)).sum

@[simp]
theorem slotNumber_nil (first : Nat) : slotNumber first [] = first := Nat.add_zero _

/-- The first parameter takes its slots before the others. -/
theorem slotNumber_cons (first : Nat) (t : Ty) (ts : List Ty) :
    slotNumber first (t :: ts) = slotNumber (first + t.width.toNat) ts := by
  rw [slotNumber, List.map_cons, List.sum_cons, slotNumber, Nat.add_assoc]

/-- The slots of some parameters are followed by those of the next. -/
theorem slotNumber_append (first : Nat) (ts us : List Ty) :
    slotNumber first (ts ++ us) = slotNumber (slotNumber first ts) us := by
  rw [slotNumber, List.map_append, List.sum_append, slotNumber, slotNumber, Nat.add_assoc]

/-- Parameters of one type take as many slots as there are times its width. -/
theorem slotNumber_replicate (first n : Nat) (t : Ty) :
    slotNumber first (List.replicate n t) = first + n * t.width.toNat := by
  rw [slotNumber, List.map_replicate, List.sum_replicate, smul_eq_mul]

/-- Fewer parameters take no more slots. -/
theorem slotNumber_take_le (first : Nat) (ts : List Ty) (k : Nat) :
    slotNumber first (ts.take k) ≤ slotNumber first ts := by
  conv_rhs => rw [← List.take_append_drop k ts, slotNumber_append]
  exact Nat.le_add_right _ _

/-- The first parameter takes its slots before the others. -/
theorem slotsEnd_cons (first : UInt16) (t : Ty) (ts : List Ty) :
    slotsEnd first (t :: ts) = slotsEnd (first + t.width) ts := rfl

/-- Slots are counted modulo their range. -/
theorem toNat_slotsEnd (first : UInt16) (ts : List Ty) :
    (slotsEnd first ts).toNat = slotNumber first.toNat ts % 2 ^ 16 := by
  induction ts generalizing first with
  | nil => exact (Nat.mod_eq_of_lt first.toNat_lt).symm
  | cons t ts ih =>
    rw [slotsEnd_cons, ih, UInt16.toNat_add, slotNumber_cons, slotNumber, slotNumber, Nat.mod_add_mod]

/-- The slot of a parameter is the one behind those in front of it. -/
theorem getElem?_slotsFrom (first : UInt16) (ts : List Ty) {i : Nat} (hi : i < ts.length) :
    (slotsFrom first ts)[i]? = some (slotsEnd first (ts.take i)) := by
  induction ts generalizing first i with
  | nil => cases hi
  | cons t ts ih =>
    rcases i with _ | i
    · rfl
    · exact ih (first + t.width) (Nat.lt_of_succ_lt_succ hi)

/-- Each parameter has the slot behind those in front of it. -/
theorem getElem?_zip_slotsFrom (first : UInt16) (ts : List Ty) (i : Nat) :
    (ts.zip (slotsFrom first ts))[i]? = ts[i]?.map fun t => (t, slotsEnd first (ts.take i)) := by
  rcases Nat.lt_or_ge i ts.length with hi | hi
  · have hpair : (ts.zip (slotsFrom first ts))[i]? = some (ts[i], slotsEnd first (ts.take i)) :=
      List.getElem?_zip_eq_some.2 ⟨List.getElem?_eq_getElem hi, getElem?_slotsFrom first ts hi⟩
    rw [hpair, List.getElem?_eq_getElem hi]
    rfl
  · rw [List.getElem?_eq_none hi, List.getElem?_eq_none (by rw [List.length_zip]; omega)]
    rfl

end Ty

/-! ## The parameters of declarations and of bodies -/

/-- The variable of a parameter is in the slot behind the parameters in front of it. -/
theorem VariableSources.getElem?_parameterVariables (src : VariableSources) (i : Nat) :
    src.parameterVariables[i]? = src.parameters[i]?.map
      (src.parameter i (Ty.slotsEnd src.firstSlot (src.parameters.take i))) := by
  rw [parameterVariables, List.getElem?_map, List.getElem?_zipIdx, Ty.getElem?_zip_slotsFrom]
  rcases src.parameters[i]? with _ | t
  · rfl
  · simp

namespace Member

variable (m : Member) (pool : ConstantPool) (kind : TypeKind)

/-- The types of the parameters that the descriptor of a method names. -/
def parameterTypes : List Ty :=
  ((MethodTy.ofDescriptor? ((pool.utf8? m.descriptor).getD "")).getD ⟨[], .unknown⟩).parameters

/-- The slot of the first parameter of a method. -/
def firstSlot : UInt16 := if m.isStatic then 0 else 1

/-- Whether the parameter at a position takes all arguments that are left. -/
def isVarargsAt (position : Nat) : Bool :=
  Access.has m.access Access.varargsBit && position + 1 = (m.parameterTypes pool).length

/-- The parameters of a header are those of the descriptor, each in its slot. -/
theorem parameters_methodHeader : (m.methodHeader pool kind).parameters =
    ((m.parameterTypes pool).zip (Ty.slotsFrom m.firstSlot (m.parameterTypes pool))).zipIdx.map
      fun ((t, slot), position) => m.parameter pool (m.isVarargsAt pool position) position slot t := rfl

/-- A parameter is found with its type and the slot behind those in front of it. -/
theorem getElem?_parameters_methodHeader (i : Nat) :
    (m.methodHeader pool kind).parameters[i]? = (m.parameterTypes pool)[i]?.map
      (m.parameter pool (m.isVarargsAt pool i) i
        (Ty.slotsEnd m.firstSlot ((m.parameterTypes pool).take i))) := by
  rw [parameters_methodHeader, List.getElem?_map, List.getElem?_zipIdx, Ty.getElem?_zip_slotsFrom]
  rcases (m.parameterTypes pool)[i]? with _ | t
  · rfl
  · simp

/-- The declaration of a method names the types of its descriptor. -/
theorem map_type_parameters_methodHeader :
    (m.methodHeader pool kind).parameters.map (·.type) = m.parameterTypes pool := by
  refine List.ext_getElem? fun i => ?_
  rw [List.getElem?_map, getElem?_parameters_methodHeader]
  rcases (m.parameterTypes pool)[i]? with _ | t <;> rfl

end Member

/-- How a class tells a method what its declaration says. -/
def ClassFile.methodContext (c : ClassFile) (m : Member) : MethodContext :=
  ⟨c.pool, m, m.methodHeader c.pool (TypeKind.ofAccess c.access), c.superClassName?⟩

section

variable (c : ClassFile) (m : Member) (code : CodeAttribute) (length : Nat) (mergeRows : Bool)

/-- The variables of a method are recovered from the types of its descriptor. -/
theorem MethodContext.parameters_variableSources :
    ((c.methodContext m).variableSources code length mergeRows).parameters = m.parameterTypes c.pool :=
  m.map_type_parameters_methodHeader _ _

/-- The first parameter is behind the receiver, if there is one. -/
theorem Member.toNat_firstSlot : m.firstSlot.toNat = if m.isStatic then 0 else 1 := by
  rw [firstSlot]
  split <;> rfl

/-- The slot behind the parameters is their number of slots, as far as a slot can count. -/
theorem MethodContext.toNat_slotsEnd :
    let src := (c.methodContext m).variableSources code length mergeRows
    (Ty.slotsEnd src.firstSlot src.parameters).toNat =
      Ty.slotNumber (if m.isStatic then 0 else 1) (m.parameterTypes c.pool) % 2 ^ 16 := by
  intro src
  rw [Ty.toNat_slotsEnd, parameters_variableSources, ← Member.toNat_firstSlot]
  rfl

end

/-- The declaration of a method and the variables of its body put each parameter into the same slot. It is the
number of the slot, counted without a bound, modulo the range of slots, and so is the slot behind the
parameters, below which no row of a table describes a variable that is there from the start. All of them are
exact if and only if the number of the slot behind the parameters is in the range. -/
theorem MethodContext.parameter_slots (c : ClassFile) (m : Member) (code : CodeAttribute) (length : Nat)
    (mergeRows : Bool) :
    let ctx := c.methodContext m
    let src := ctx.variableSources code length mergeRows
    let types := m.parameterTypes c.pool
    let number := fun ts => Ty.slotNumber (if m.isStatic then 0 else 1) ts
    (∀ i t, types[i]? = some t → ∃ slot : UInt16, slot.toNat = number (types.take i) % 2 ^ 16 ∧
      ctx.header.parameters[i]? = some (m.parameter c.pool (m.isVarargsAt c.pool i) i slot t) ∧
      src.parameterVariables[i]? = some (src.parameter i slot t)) ∧
    (Ty.slotsEnd src.firstSlot src.parameters).toNat = number types % 2 ^ 16 ∧
    ((∀ i v, src.parameterVariables[i]? = some v → v.slot.toNat = number (types.take i)) ∧
      (Ty.slotsEnd src.firstSlot src.parameters).toNat = number types ↔ number types < 2 ^ 16) := by
  intro ctx src types number
  have hend := toNat_slotsEnd c m code length mergeRows
  -- the slots before a parameter, modulo the size of a slot number
  have hslot : ∀ i, (Ty.slotsEnd m.firstSlot (types.take i)).toNat = number (types.take i) % 2 ^ 16 :=
    fun i => by rw [Ty.toNat_slotsEnd, m.toNat_firstSlot]
  have hvariable : ∀ i, src.parameterVariables[i]? =
      types[i]?.map (src.parameter i (Ty.slotsEnd m.firstSlot (types.take i))) := fun i => by
    rw [src.getElem?_parameterVariables, parameters_variableSources]
    rfl
  refine ⟨fun i t ht => ⟨_, hslot i, ?_, ?_⟩, hend, ?_, fun hlt => ⟨fun i v hv => ?_, ?_⟩⟩
  · exact (m.getElem?_parameters_methodHeader _ _ i).trans (by rw [ht]; rfl)
  · rw [hvariable, ht]
    rfl
  -- the end of the slots is a slot number, so that an exact end is a bound
  · rintro ⟨-, hexact⟩
    rw [← hexact]
    exact UInt16.toNat_lt _
  · rw [hvariable] at hv
    obtain ⟨t, -, rfl⟩ := Option.map_eq_some_iff.1 hv
    have hle : number (types.take i) ≤ number types := Ty.slotNumber_take_le ..
    -- slot numbers grow along the parameters, so the bound on all is one on each
    exact (hslot i).trans (Nat.mod_eq_of_lt (Nat.lt_of_le_of_lt hle hlt))
  · exact hend.trans (Nat.mod_eq_of_lt hlt)

/-! ## A class with too many parameters -/

namespace ModifiedUtf8

/-- A text is read back from its encoding. -/
theorem decode_encode (text : String) : decode (encode text) = text := by
  rw [encode, decode_bytesOfUnits, charsOfUnits_unitsOfChars, String.ofList_toList]

/-- A character of seven bits takes one byte. -/
theorem length_encode_of_ascii {cs : List Char} (h : ∀ c ∈ cs, 1 ≤ c.toNat ∧ c.toNat ≤ 0x7F) :
    (bytesOfUnits (unitsOfChars cs)).length = cs.length := by
  induction cs with
  | nil => rfl
  | cons c cs ih =>
    obtain ⟨hc, hcs⟩ := List.forall_mem_cons.1 h
    obtain ⟨u, hunit, hu⟩ := unitsOfChar_of_basic (c := c) (by omega)
    have hbyte : bytesOfUnit u = [u.toUInt8] := by
      rw [bytesOfUnit, if_pos]
      rw [UInt16.le_iff_toNat_le, UInt16.le_iff_toNat_le, hu]
      exact hc
    rw [unitsOfChars, List.flatMap_cons, hunit, List.singleton_append, bytesOfUnits, List.flatMap_cons,
      hbyte, List.singleton_append, List.length_cons, List.length_cons]
    exact congrArg (· + 1) (ih hcs)

end ModifiedUtf8

/-- Parameters that take two slots each. -/
def wideParameters (n : Nat) : MethodTy := ⟨List.replicate n .long, .void⟩

/-- Parameters of type `long` are spelled by as many letters. -/
theorem spelling_replicate_long (n : Nat) :
    Descriptor.spelling (List.replicate n .long) = List.replicate n 'J' := by
  induction n with
  | zero => rfl
  | succ n ih =>
    rw [List.replicate_succ, Descriptor.spelling_cons, ih]
    rfl

/-- Their descriptor is read as these parameters. -/
theorem ofDescriptor?_wideParameters (n : Nat) :
    MethodTy.ofDescriptor? (wideParameters n).descriptor = some (wideParameters n) := by
  refine MethodTy.ofDescriptor?_eq_some_iff.2 ⟨trivial, List.replicate n 'J', ?_, ?_, ?_⟩
  · rw [List.mem_replicate]
    rintro ⟨-, h⟩
    cases h
  · rw [MethodTy.toList_descriptor, wideParameters, spelling_replicate_long]
  · refine Descriptor.readParameters?_eq_some_iff.2 ⟨?_, ?_, ?_, ?_⟩
    · intro t ht
      rw [(List.mem_replicate.1 ht).2]
      trivial
    · rw [wideParameters, spelling_replicate_long]
      exact List.prefix_append _ _
    · rw [wideParameters, spelling_replicate_long]
    · intro hne
      rcases n with _ | n
      · exact absurd rfl hne
      · rw [wideParameters, List.dropLast_replicate, spelling_replicate_long, List.length_replicate,
          List.length_replicate]
        omega

/-- The layout of a class with one method, which is static and returns at once. -/
def oneMethodLayout (descriptor : String) : ClassFile where
  minor := 0
  major := 52
  poolCount := 6
  pool := .ofSlots
    [none, some (.utf8 "A"), some (.classRef 1), some (.utf8 "m"), some (.utf8 descriptor), some (.utf8 "Code")]
  access := Access.publicBit
  thisClass := 2
  superClass := 0
  interfaces := []
  fields := []
  methods := [⟨Access.staticBit, 3, 4, [⟨5, [0, 0, 0, 0, 0, 0, 0, 1, 0xB1, 0, 0, 0, 0], none⟩]⟩]
  attributes := []

/-- A text that is not too long can be a constant. -/
theorem grammar_utf8 (text : String) (h : (ModifiedUtf8.encode text).length < 2 ^ 16) :
    ∃ bytes, (Constant.utf8 text).grammar bytes := ⟨_, _, h, ModifiedUtf8.decode_encode text, rfl⟩

/-- The class with one method can be written. -/
theorem exists_grammar_oneMethodLayout {descriptor : String}
    (h : (ModifiedUtf8.encode descriptor).length < 2 ^ 16) :
    ∃ bytes, (oneMethodLayout descriptor).grammar bytes := by
  obtain ⟨a, ha⟩ := grammar_utf8 "A" (by decide)
  obtain ⟨m, hm⟩ := grammar_utf8 "m" (by decide)
  obtain ⟨d, hd⟩ := grammar_utf8 _ h
  obtain ⟨code, hcode⟩ := grammar_utf8 "Code" (by decide)
  have hslots := ConstantPool.SlotsGrammar.single rfl ha <|
    .single (c := .classRef 1) rfl rfl <| .single rfl hm <| .single rfl hd <| .single rfl hcode .nil
  have hnone : ∀ {α : Type} (L : Grammar α), Counted L [] (Bytes.ofU2 0 ++ []) := fun L =>
    ⟨Nat.two_pow_pos 16, [], .nil, rfl⟩
  have hattribute : Counted Attribute.grammar
      [⟨5, [0, 0, 0, 0, 0, 0, 0, 1, 0xB1, 0, 0, 0, 0], none⟩] _ :=
    ⟨by decide, _, .cons ⟨_, ⟨by decide, rfl⟩, rfl⟩ .nil, rfl⟩
  have hmethod : Counted Member.grammar (oneMethodLayout descriptor).methods _ :=
    ⟨Nat.one_lt_two_pow (by decide), _, .cons ⟨_, hattribute, rfl⟩ .nil, rfl⟩
  exact ⟨_, _, ⟨_, _, _, _, _, ⟨_, hslots, rfl⟩, hnone _, hnone _, hmethod, hnone _, rfl⟩, rfl⟩

/-- All indices in it lead where they should. -/
theorem resolved_oneMethodLayout (descriptor : String) : (oneMethodLayout descriptor).Resolved where
  pool := by
    intro c hc r hr
    simp only [oneMethodLayout, ConstantPool.ofSlots, List.isEmpty_cons, Bool.false_eq_true, if_false,
      List.mem_cons, List.not_mem_nil, or_false, reduceCtorEq, false_or, Option.some.injEq] at hc
    rcases hc with rfl | rfl | rfl | rfl | rfl
    · cases hr
    · obtain rfl := List.mem_singleton.1 hr
      exact ⟨_, rfl, rfl⟩
    · cases hr
    · cases hr
    · cases hr
  thisClass := ⟨_, rfl, rfl⟩
  superClass h := absurd rfl h
  interfaces := nofun
  fields := nofun
  methods m hm := by
    obtain rfl := List.mem_singleton.1 hm
    refine ⟨⟨_, rfl, rfl⟩, ⟨_, rfl, rfl⟩, fun a ha => ?_⟩
    obtain rfl := List.mem_singleton.1 ha
    exact ⟨_, rfl, rfl⟩
  attributes := nofun

/-- A class is read whatever the descriptor of its method is. -/
theorem exists_method_with_descriptor (descriptor : String)
    (h : (ModifiedUtf8.encode descriptor).length < 2 ^ 16) :
    ∃ bytes c, ClassFile.read bytes = .ok c ∧
      ∃ m ∈ c.methods, c.pool.utf8? m.descriptor = some descriptor := by
  obtain ⟨bytes, hgrammar⟩ := exists_grammar_oneMethodLayout h
  have hraw : (oneMethodLayout descriptor).IsRaw := by
    refine ⟨nofun, fun m hm a ha => ?_, nofun⟩
    obtain rfl := List.mem_singleton.1 hm
    obtain rfl := List.mem_singleton.1 ha
    rfl
  exact ⟨bytes, _, ClassFile.read_eq_ok_iff_exists.2 ⟨_, ClassFile.readLayout_eq_ok_iff.2
    ⟨hraw, hgrammar, rfl⟩, resolved_oneMethodLayout descriptor, rfl⟩, _, List.mem_cons_self, rfl⟩

/-- The descriptor has a byte for each parameter and three more. -/
theorem length_encode_wideParameters (n : Nat) :
    (ModifiedUtf8.encode (wideParameters n).descriptor).length = n + 3 := by
  rw [ModifiedUtf8.encode, ModifiedUtf8.length_encode_of_ascii]
  all_goals rw [MethodTy.toList_descriptor, wideParameters, spelling_replicate_long]
  · simp [Ty.descriptor]
  · intro c hc
    simp only [Ty.descriptor, String.reduceToList, List.mem_cons, List.mem_append, List.mem_replicate,
      List.not_mem_nil, or_false] at hc
    rcases hc with rfl | ⟨-, rfl⟩ | rfl | rfl <;> decide

/-- With `2 ^ 15` parameters of two slots each, the slot behind them is out of the range of slots. -/
theorem not_parameter_slots_exact : ¬∀ bytes c, ClassFile.read bytes = .ok c → ∀ m ∈ c.methods,
    ∀ code length mergeRows, let src := (c.methodContext m).variableSources code length mergeRows
      (Ty.slotsEnd src.firstSlot src.parameters).toNat =
        Ty.slotNumber (if m.isStatic then 0 else 1) (m.parameterTypes c.pool) := by
  intro h
  -- the number stays a variable, so that nothing counts up to it
  obtain ⟨n, hn⟩ : ∃ n, n = 2 ^ 15 := ⟨_, rfl⟩
  obtain ⟨bytes, c, hread, m, hm, htext⟩ :=
    exists_method_with_descriptor (wideParameters n).descriptor
      (by rw [length_encode_wideParameters]; omega)
  have htypes : m.parameterTypes c.pool = List.replicate n .long := by
    rw [Member.parameterTypes, htext, Option.getD_some, ofDescriptor?_wideParameters]
    rfl
  have hexact := h bytes c hread m hm ⟨0, 0, [0xB1], [], []⟩ 1 true
  have hmod := (MethodContext.toNat_slotsEnd ..).symm.trans hexact
  rw [htypes, Ty.slotNumber_replicate, show Ty.long.width.toNat = 2 from rfl] at hmod
  omega

end JvmDecompiler
