import JvmDecompiler.Proofs.ClassGrammar
import Mathlib.Data.List.ReduceOption

/-!
# Files that are cut short or too long

A reader does not look behind the bytes of the value that it finds, and of a part of these bytes it reports
that the input ends (`Reader.Framed`). Both are kept when readers are put together, so the layout of a file
has both, up to its pool.

A constant is read as one of several alternatives. If the input ends behind its tag, what is reported is
that no alternative can be read. So it depends on where a file is cut off how it is reported
(`ClassFile.read_cut_or_extended`): in its first four bytes the magic number is wrong, inside a constant the
file is malformed, and everywhere else it is truncated. Nothing that follows a file is overlooked.
-/

namespace JvmDecompiler

open Reader

namespace Reader

variable {α β : Type} {L : Grammar α} {fault : ReadFault}

/-- The value is found whatever is behind its bytes, and a part of its bytes has the given fault. -/
def Framed (fault : ReadFault) (r : Reader α) : Prop :=
  ∀ input a rest, r input = .ok (a, rest) → ∃ front, input = front ++ rest ∧
    (∀ more, r (front ++ more) = .ok (a, more)) ∧
      ∀ part, part <+: front → part ≠ front → r part = .error fault

/-- What one reader finds, the next goes on from. -/
theorem bind_of_ok {r : Reader α} {f : α → Reader β} {input rest : Bytes} {a : α}
    (h : r input = .ok (a, rest)) : (r >>= f) input = f a rest := by
  show (r input).bind (fun (a, rest) => f a rest) = _
  rw [h]
  rfl

/-- A fault of the first reader is one of both. -/
theorem bind_of_error {r : Reader α} {f : α → Reader β} {input : Bytes}
    (h : r input = .error fault) : (r >>= f) input = .error fault := by
  show (r input).bind (fun (a, rest) => f a rest) = _
  rw [h]
  rfl

/-- A list that is cut ends in its front, or behind it in its back. -/
theorem prefix_append_cases {part front back : Bytes} (h : part <+: front ++ back)
    (hne : part ≠ front ++ back) :
    part <+: front ∧ part ≠ front ∨ ∃ rest, part = front ++ rest ∧ rest <+: back ∧ rest ≠ back := by
  rcases List.prefix_or_prefix_of_prefix h (List.prefix_append front back) with hfront | ⟨rest, rfl⟩
  · by_cases heq : part = front
    · refine .inr ⟨[], ?_⟩
      simp_all [eq_comm]
    · exact .inl ⟨hfront, heq⟩
  · exact .inr ⟨rest, rfl, (List.prefix_append_right_inj _).1 h, fun heq => hne (heq ▸ rfl)⟩

namespace Framed

variable {r : Reader α}

/-- A part of the bytes of a value has the fault. -/
theorem of_cut (h : Framed fault r) {bytes part : Bytes} {a : α} (hr : r bytes = .ok (a, []))
    (hpart : part <+: bytes) (hne : part ≠ bytes) : r part = .error fault := by
  obtain ⟨front, rfl, -, hcut⟩ := h _ _ _ hr
  rw [List.append_nil] at hpart hne
  exact hcut part hpart hne

/-- Two readers in a row are framed if each of them is. -/
theorem bind {f : α → Reader β} (h : Framed fault r) (hf : ∀ a, Framed fault (f a)) :
    Framed fault (r >>= f) := by
  intro input b rest hrun
  rcases hr : r input with e | ⟨a, middle⟩
  · rw [bind_of_error hr] at hrun
    cases hrun
  rw [bind_of_ok hr] at hrun
  obtain ⟨front, rfl, hmore, hcut⟩ := h _ _ _ hr
  obtain ⟨back, rfl, hmore', hcut'⟩ := hf a _ _ _ hrun
  refine ⟨front ++ back, (List.append_assoc ..).symm, fun more => ?_, fun part hpart hne => ?_⟩
  · rw [List.append_assoc, bind_of_ok (hmore _), hmore']
  · rcases prefix_append_cases hpart hne with ⟨hpart, hne⟩ | ⟨rest', rfl, hrest, hne⟩
    · exact bind_of_error (hcut part hpart hne)
    · rw [bind_of_ok (hmore _), hcut' rest' hrest hne]

end Framed

/-- A value that is given has no bytes to cut. -/
theorem framed_pure (a : α) : Framed fault (pure a) := by
  intro input b rest h
  cases h
  exact ⟨[], rfl, fun _ => rfl, fun part hpart hne => absurd (List.prefix_nil.1 hpart) hne⟩

/-- A reader that fails finds no value to cut. -/
theorem framed_fail (e : ReadFault) : Framed fault (fail e : Reader α) := by
  intro input a rest h
  cases h

/-- A reader of a fixed number of bytes reports the end of shorter inputs. -/
theorem Reads.framed {r : Reader α} (hr : Reads r L) {n : Nat}
    (hn : ∀ a bytes, L a bytes → bytes.length = n)
    (hshort : ∀ input : Bytes, input.length < n → r input = .error fault) : Framed fault r := by
  intro input a rest h
  obtain ⟨front, hfront, rfl⟩ := (hr _ _ _).1 h
  refine ⟨front, rfl, fun more => (hr _ _ _).2 ⟨front, hfront, rfl⟩, fun part hpart hne => ?_⟩
  have hlt := lt_of_le_of_ne hpart.length_le fun heq => hne (hpart.eq_of_length heq)
  exact hshort part (hn a front hfront ▸ hlt)

/-- A byte cannot be cut. -/
theorem framed_u1 : Framed .endOfInput u1 := by
  refine reads_u1.framed (n := 1) (fun n bytes h => by rw [h]; rfl) fun input hlt => ?_
  match input with
  | [] => rfl
  | _ :: _ => simp at hlt

/-- Two bytes that are cut end the input. -/
theorem framed_u2 : Framed .endOfInput u2 := by
  refine reads_u2.framed (n := 2) (fun n bytes h => by rw [h]; rfl) fun input hlt => ?_
  match input with
  | [] | [_] => rfl
  | _ :: _ :: _ =>
    simp only [List.length_cons] at hlt
    omega

/-- Four bytes that are cut end the input. -/
theorem framed_u4 : Framed .endOfInput u4 := by
  refine reads_u4.framed (n := 4) (fun n bytes h => by rw [h]; rfl) fun input hlt => ?_
  match input with
  | [] | [_] | [_, _] | [_, _, _] => rfl
  | _ :: _ :: _ :: _ :: _ =>
    simp only [List.length_cons] at hlt
    omega

/-- So do eight bytes. -/
theorem framed_u8 : Framed .endOfInput u8 := framed_u4.bind fun _ => framed_u4.bind fun _ => framed_pure _

/-- So do the four bytes of a signed number. -/
theorem framed_s4 : Framed .endOfInput s4 := framed_u4.bind fun _ => framed_pure _

/-- Of a number of bytes none may be missing. -/
theorem framed_take (n : Nat) : Framed .endOfInput (take n) :=
  (reads_take n).framed (fun _ _ h => h.2 ▸ h.1) fun _ hlt => if_neg (Nat.not_le_of_lt hlt)

/-- A fixed number of values is framed if each of them is. -/
theorem Framed.times {item : Reader α} (h : Framed fault item) (n : Nat) : Framed fault (times item n) := by
  induction n with
  | zero => exact framed_pure _
  | succ n ih => exact h.bind fun _ => ih.bind fun _ => framed_pure _

/-- A counted list is framed if its items are. -/
theorem Framed.counted {item : Reader α} (h : Framed .endOfInput item) :
    Framed .endOfInput (counted item) :=
  framed_u2.bind fun count => h.times count.toNat

end Reader

/-! ## Constants and pools -/

/-- Behind the tag of a constant. -/
theorem Constant.framed_readContent (tag : UInt8) : Framed .endOfInput (readContent tag) := by
  unfold readContent
  split
  case h_1 => exact framed_u2.bind fun _ => (framed_take _).bind fun _ => framed_pure _
  case h_2 => exact framed_s4.bind fun _ => framed_pure _
  case h_3 => exact framed_u4.bind fun _ => framed_pure _
  case h_4 | h_5 => exact framed_u8.bind fun _ => framed_pure _
  case h_6 | h_7 | h_13 | h_16 | h_17 => exact framed_u2.bind fun _ => framed_pure _
  case h_8 | h_9 | h_10 | h_11 | h_14 | h_15 =>
    exact framed_u2.bind fun _ => framed_u2.bind fun _ => framed_pure _
  case h_12 => exact framed_u1.bind fun _ => framed_u2.bind fun _ => framed_pure _
  case h_18 => exact framed_fail _

/-- With its tag and a part of its content, a constant is no alternative. -/
theorem Constant.read_of_cut {c : Constant} {inside behind : Bytes} (h : c.grammar (inside ++ behind))
    (hinside : inside ≠ []) (hbehind : behind ≠ []) :
    Constant.read inside = .error .noAlternative := by
  obtain ⟨tag, part, rfl⟩ := List.exists_cons_of_ne_nil hinside
  have hread : readContent tag (part ++ behind) = .ok (c, []) := (reads_readContent tag).whole.2 h
  have hcut := (framed_readContent tag).of_cut hread (List.prefix_append part behind) (by simpa)
  show asAlternative (readContent tag) part = _
  rw [asAlternative, hcut]
  rfl

namespace ConstantPool

/-- The constants of a pool in their order. -/
def constants (pool : ConstantPool) : List Constant := pool.slots.toList.reduceOption

/-- The bytes of a row of constants, up to some place inside one of them: behind its tag and in front of
its end. -/
inductive EndsInside : List Constant → Bytes → Prop
  | first {c cs inside behind} (hinside : inside ≠ []) (hbehind : behind ≠ [])
    (hc : c.grammar (inside ++ behind)) : EndsInside (c :: cs) inside
  | later {c cs front part} (hc : c.grammar front) (hpart : EndsInside cs part) :
    EndsInside (c :: cs) (front ++ part)

/-- The constants of a pool that is filled from its slots are those in the slots. -/
theorem constants_ofSlots (slots : List (Option Constant)) :
    (ofSlots (none :: slots)).constants = slots.reduceOption := by
  simp [constants, ofSlots, List.reduceOption_cons_of_none]

variable {n : Nat} {c : Constant} {slots : List (Option Constant)} {bytes front rest part : Bytes}
  {fault : ReadFault}

/-- A fault in the first constant is one of the pool. -/
theorem readSlots_of_read (h : Constant.read bytes = .error fault) :
    readSlots (n + 1) bytes = .error fault := by
  unfold readSlots
  exact bind_of_error h

/-- A fault behind a constant with one slot is one of the pool. -/
theorem readSlots_of_single (hwide : c.isWide = false) (hc : c.grammar front)
    (h : readSlots n rest = .error fault) : readSlots (n + 1) (front ++ rest) = .error fault := by
  have hread := (Constant.reads_read (front ++ rest) c rest).2 ⟨front, hc, rfl⟩
  unfold readSlots
  rw [bind_of_ok hread]
  simp only [hwide, Bool.false_eq_true, if_false]
  exact bind_of_error h

/-- A fault behind a wide constant is one of the pool. -/
theorem readSlots_of_wide (hwide : c.isWide = true) (hc : c.grammar front)
    (h : readSlots n rest = .error fault) : readSlots (n + 2) (front ++ rest) = .error fault := by
  have hread := (Constant.reads_read (front ++ rest) c rest).2 ⟨front, hc, rfl⟩
  unfold readSlots
  rw [bind_of_ok hread]
  simp only [hwide, if_true]
  exact bind_of_error h

/-- The bytes of the slots of a pool up to some place inside a constant. -/
theorem readSlots_of_endsInside (h : SlotsGrammar n slots bytes)
    (hpart : EndsInside slots.reduceOption part) : readSlots n part = .error .noAlternative := by
  induction h generalizing part with
  | nil => cases hpart
  | single hwide _ _ ih =>
    rw [List.reduceOption_cons_of_some] at hpart
    cases hpart with
    | first hinside hbehind hc => exact readSlots_of_read (Constant.read_of_cut hc hinside hbehind)
    | later hc hpart => exact readSlots_of_single hwide hc (ih hpart)
  | wide hwide _ _ ih =>
    rw [List.reduceOption_cons_of_some, List.reduceOption_cons_of_none] at hpart
    cases hpart with
    | first hinside hbehind hc => exact readSlots_of_read (Constant.read_of_cut hc hinside hbehind)
    | later hc hpart => exact readSlots_of_wide hwide hc (ih hpart)
  | cut hwide _ =>
    -- a wide constant in the last slot is all that is left
    cases hpart with
    | first hinside hbehind hc => exact readSlots_of_read (Constant.read_of_cut hc hinside hbehind)
    | later _ hpart => cases hpart

/-- A constant that is cut ends the input if the tag is missing, and is malformed otherwise. -/
theorem endOfInput_or_endsInside {cs : List Constant} (hc : c.grammar front) (hpart : part <+: front)
    (hne : part ≠ front) :
    readSlots (n + 1) part = .error .endOfInput ∨ EndsInside (c :: cs) part := by
  obtain ⟨behind, rfl⟩ := hpart
  by_cases hnil : part = []
  · exact .inl (readSlots_of_read (hnil ▸ rfl))
  · exact .inr (.first hnil (fun hbehind => hne (by rw [hbehind, List.append_nil])) hc)

/-- A part of the bytes of the slots of a pool ends inside a constant, or the end of the input is reported. -/
theorem readSlots_of_cut (h : SlotsGrammar n slots bytes) (hpart : part <+: bytes) (hne : part ≠ bytes) :
    readSlots n part = .error .endOfInput ∨ EndsInside slots.reduceOption part := by
  induction h generalizing part with
  | nil => exact absurd (List.prefix_nil.1 hpart) hne
  | single hwide hc _ ih =>
    rw [List.reduceOption_cons_of_some]
    rcases prefix_append_cases hpart hne with ⟨hpart, hne⟩ | ⟨rest, rfl, hrest, hne⟩
    · exact endOfInput_or_endsInside hc hpart hne
    · exact (ih hrest hne).imp (readSlots_of_single hwide hc) (.later hc)
  | wide hwide hc _ ih =>
    rw [List.reduceOption_cons_of_some, List.reduceOption_cons_of_none]
    rcases prefix_append_cases hpart hne with ⟨hpart, hne⟩ | ⟨rest, rfl, hrest, hne⟩
    · exact endOfInput_or_endsInside hc hpart hne
    · exact (ih hrest hne).imp (readSlots_of_wide hwide hc) (.later hc)
  | cut _ hc => exact endOfInput_or_endsInside hc hpart hne

end ConstantPool

/-! ## Files -/

/-- An attribute that is cut ends the input. -/
theorem Attribute.framed_read : Framed .endOfInput Attribute.read :=
  framed_u2.bind fun _ => framed_u4.bind fun _ => (framed_take _).bind fun _ => framed_pure _

/-- So does a field or a method. -/
theorem Member.framed_read : Framed .endOfInput Member.read :=
  framed_u2.bind fun _ => framed_u2.bind fun _ => framed_u2.bind fun _ =>
    Attribute.framed_read.counted.bind fun _ => framed_pure _

namespace ClassFile

variable {bytes part body : Bytes} {c : ClassFile} {minor major poolCount : UInt16}

/-- Behind the pool a class file is read by a framed reader. -/
theorem exists_readBody (minor major : UInt16) : ∃ rest : UInt16 → ConstantPool → Reader ClassFile,
    (∀ count pool, Framed .endOfInput (rest count pool)) ∧
      readBody minor major = u2 >>= fun count => ConstantPool.read count >>= rest count :=
  ⟨_, fun _ _ => framed_u2.bind fun _ => framed_u2.bind fun _ => framed_u2.bind fun _ =>
    framed_u2.counted.bind fun _ => Member.framed_read.counted.bind fun _ =>
      Member.framed_read.counted.bind fun _ => Attribute.framed_read.counted.bind fun _ =>
        framed_pure _, rfl⟩

/-- Two bytes are read back as written. -/
theorem u2_append (count : UInt16) (bytes : Bytes) : u2 (Bytes.ofU2 count ++ bytes) = .ok (count, bytes) :=
  (reads_u2 _ _ _).2 ⟨_, rfl, rfl⟩

/-- A fault in the pool is one of the class file. -/
theorem readBody_of_error (minor major : UInt16) {fault : ReadFault}
    (h : ConstantPool.readSlots (poolCount.toNat - 1) part = .error fault) :
    readBody minor major (Bytes.ofU2 poolCount ++ part) = .error fault := by
  obtain ⟨rest, -, heq⟩ := exists_readBody minor major
  rw [heq, bind_of_ok (u2_append _ _)]
  exact bind_of_error (bind_of_error h)

/-- A part of what follows the version ends inside a constant, or the end of the input is reported. -/
theorem readBody_of_cut (h : readBody minor major body = .ok (c, [])) (hpart : part <+: body)
    (hne : part ≠ body) : readBody minor major part = .error .endOfInput ∨
      ∃ inside, ConstantPool.EndsInside c.pool.constants inside ∧
        part = Bytes.ofU2 c.poolCount ++ inside := by
  obtain ⟨rest, hrest, heq⟩ := exists_readBody minor major
  obtain ⟨-, -, -, pool, _, _, _, _, ⟨slots, hslots, hpool⟩, -, -, -, -, hbody⟩ :=
    (reads_readBody minor major).whole.1 h
  simp only [List.append_assoc] at hbody
  generalize Bytes.ofU2 c.access ++ _ = members at hbody
  obtain rfl := hbody
  have hconstants : c.pool.constants = slots.reduceOption := hpool ▸ ConstantPool.constants_ofSlots slots
  have hread : ∀ more, ConstantPool.read c.poolCount (pool ++ more) = .ok (c.pool, more) := fun more =>
    (ConstantPool.reads_read _ _ _ _).2 ⟨pool, ⟨slots, hslots, hpool⟩, rfl⟩
  -- cut off in the number of slots, in the pool, or behind it
  rcases prefix_append_cases hpart hne with ⟨hpart, hne⟩ | ⟨part, rfl, hpart, hne⟩
  · rw [heq]
    exact .inl (bind_of_error (framed_u2.of_cut (reads_u2.whole.2 rfl) hpart hne))
  rcases prefix_append_cases hpart hne with ⟨hpart, hne⟩ | ⟨part, rfl, hpart, hne⟩
  · rw [hconstants]
    exact (ConstantPool.readSlots_of_cut hslots hpart hne).imp (readBody_of_error _ _) fun hinside =>
      ⟨part, hinside, rfl⟩
  · rw [heq, bind_of_ok (u2_append _ _), bind_of_ok (hread _)] at h ⊢
    exact .inl ((hrest _ _).of_cut h hpart hne)

/-- What is in front of the pool, with the number of its slots. -/
def preamble (c : ClassFile) : Bytes :=
  magic ++ Bytes.ofU2 c.minor ++ Bytes.ofU2 c.major ++ Bytes.ofU2 c.poolCount

/-- The bytes are the beginning of a class file up to some place inside a constant of its pool. -/
def EndsInConstant (c : ClassFile) (bytes : Bytes) : Prop :=
  ∃ inside, ConstantPool.EndsInside c.pool.constants inside ∧ bytes = c.preamble ++ inside

/-- Behind a version that is supported, what is read and reported is up to the rest of the file. -/
theorem readLayout_of_supported (hsupported : isSupported major minor) (body : Bytes) :
    readLayout (magic ++ (Bytes.ofU2 minor ++ (Bytes.ofU2 major ++ body))) =
      match readBody minor major body with
      | .error .endOfInput => .error .truncated
      | .error _ => .error .malformed
      | .ok (c, []) => .ok c
      | .ok (_, rest) => .error (.trailingBytes rest.length) := by
  have hheader := (reads_ofU2U2 (fun (minor major : UInt16) => (minor, major))
    (Bytes.ofU2 minor ++ (Bytes.ofU2 major ++ body)) (minor, major) body).2
    ⟨_, ⟨minor, major, rfl, rfl⟩, (List.append_assoc ..).symm⟩
  have htake : ∀ rest : Bytes, (magic ++ rest).take 4 = magic := fun _ => rfl
  have hdrop : ∀ rest : Bytes, (magic ++ rest).drop 4 = rest := fun _ => rfl
  simp only [readLayout, htake, hdrop, hheader, hsupported, ne_eq, not_true_eq_false, if_false,
    Bool.not_true, Bool.false_eq_true]
  rfl

/-- A class file is read as magic number, versions and body. -/
theorem exists_body_of_readLayout (h : readLayout bytes = .ok c) : isSupported c.major c.minor = true ∧
    ∃ body, readBody c.minor c.major body = .ok (c, []) ∧
      bytes = magic ++ (Bytes.ofU2 c.minor ++ (Bytes.ofU2 c.major ++ body)) := by
  obtain ⟨hraw, ⟨body, hbody, rfl⟩, hsupported⟩ := readLayout_eq_ok_iff.1 h
  exact ⟨hsupported, body, (reads_readBody _ _).whole.2 ⟨rfl, rfl, hraw, hbody⟩, by simp [magic]⟩

/-- Without four bytes there is no magic number. -/
theorem readLayout_of_short (h : bytes.length < 4) : readLayout bytes = .error .badMagic := by
  have hmagic : bytes.take 4 ≠ magic := by
    intro heq
    have hlength := congrArg List.length heq
    rw [List.length_take, Nat.min_eq_right h.le] at hlength
    exact absurd hlength (Nat.ne_of_lt h)
  simp only [readLayout, if_pos hmagic]
  rfl

/-- A class file that is cut inside a constant is malformed. -/
theorem readLayout_of_endsInConstant (h : readLayout bytes = .ok c) (hpart : c.EndsInConstant part) :
    readLayout part = .error .malformed := by
  obtain ⟨hsupported, body, hbody, -⟩ := exists_body_of_readLayout h
  obtain ⟨-, -, -, _, _, _, _, _, ⟨slots, hslots, hpool⟩, -⟩ := (reads_readBody _ _).whole.1 hbody
  obtain ⟨inside, hinside, rfl⟩ := hpart
  rw [hpool, ConstantPool.constants_ofSlots] at hinside
  have hread := readBody_of_error c.minor c.major
    (ConstantPool.readSlots_of_endsInside hslots hinside)
  simp only [preamble, List.append_assoc, readLayout_of_supported hsupported, hread]

/-- A class file that is cut behind its magic number is truncated, unless it is cut inside a constant. -/
theorem readLayout_of_cut (h : readLayout bytes = .ok c) (hpart : part <+: bytes) (hne : part ≠ bytes)
    (hlength : 4 ≤ part.length) : readLayout part = .error .truncated ∨ c.EndsInConstant part := by
  obtain ⟨hsupported, body, hbody, rfl⟩ := exists_body_of_readLayout h
  rcases prefix_append_cases hpart hne with ⟨hpart, hne⟩ | ⟨part, rfl, hpart, hne⟩
  · exact absurd (hpart.eq_of_length_le hlength) hne
  rw [← List.append_assoc] at hpart hne
  rcases prefix_append_cases hpart hne with ⟨hpart, hne⟩ | ⟨part, rfl, hpart, hne⟩
  · -- the version is cut off
    have hframed : Framed .endOfInput (do return (← u2, ← u2) : Reader (UInt16 × UInt16)) :=
      framed_u2.bind fun _ => framed_u2.bind fun _ => framed_pure _
    have hversion := hframed.of_cut ((reads_ofU2U2 Prod.mk).whole.2 ⟨c.minor, c.major, rfl, rfl⟩) hpart hne
    have htake : (magic ++ part).take 4 = magic := rfl
    have hdrop : (magic ++ part).drop 4 = part := rfl
    left
    simp only [readLayout, htake, hdrop, ne_eq, not_true_eq_false, if_false]
    rw [hversion]
    rfl
  · rw [List.append_assoc]
    rcases readBody_of_cut hbody hpart hne with hend | ⟨inside, hinside, rfl⟩
    · left
      simp only [readLayout_of_supported hsupported, hend]
    · exact .inr ⟨inside, hinside, by simp only [preamble, List.append_assoc]⟩

/-- A fault of the layout is one of the class file. -/
theorem read_of_readLayout {e : FormatError} (h : readLayout bytes = .error e) : read bytes = .error e := by
  rw [read, h]
  rfl

/-- What is behind the file of a class is reported with its length. A file that is cut off has no magic
number if it has fewer than four bytes, is malformed if it ends inside a constant, and is truncated
otherwise. -/
theorem read_cut_or_extended (h : read bytes = .ok c) :
    (∀ more, more ≠ [] → read (bytes ++ more) = .error (.trailingBytes more.length)) ∧
    ∀ part, part <+: bytes → part ≠ bytes →
      (part.length < 4 → read part = .error .badMagic) ∧
      (4 ≤ part.length → c.EndsInConstant part → read part = .error .malformed) ∧
      (4 ≤ part.length → ¬c.EndsInConstant part → read part = .error .truncated) := by
  obtain ⟨layout, hlayout, -, rfl⟩ := read_eq_ok_iff_exists.1 h
  refine ⟨fun more hmore => ?_, fun part hpart hne =>
    ⟨fun hlt => ?_, fun _ hinside => ?_, fun hle hinside => ?_⟩⟩
  · obtain ⟨hsupported, body, hbody, rfl⟩ := exists_body_of_readLayout hlayout
    have hread := (reads_readBody layout.minor layout.major (body ++ more) layout more).2
      ⟨body, (reads_readBody _ _).whole.1 hbody, rfl⟩
    refine read_of_readLayout ?_
    obtain ⟨b, rest, rfl⟩ := List.exists_cons_of_ne_nil hmore
    simp only [List.append_assoc, readLayout_of_supported hsupported, hread]
  · exact read_of_readLayout (readLayout_of_short hlt)
  · exact read_of_readLayout (readLayout_of_endsInConstant hlayout hinside)
  · exact read_of_readLayout ((readLayout_of_cut hlayout hpart hne hle).resolve_right hinside)

/-- The file of the smallest class with a byte behind it, and cut off behind the tag of its first
constant. -/
theorem read_cut_or_extended_smallestClass :
    ∃ c, read smallestClass = .ok c ∧ read (smallestClass ++ [0]) = .error (.trailingBytes 1) ∧
      c.EndsInConstant (smallestClass.take 11) ∧ read (smallestClass.take 11) = .error .malformed := by
  have hread : ∃ c, read smallestClass = .ok c ∧
      c.pool.constants = [.utf8 (ModifiedUtf8.decode [0x41]), .classRef 1] ∧
      c.preamble = smallestClass.take 10 := ⟨_, rfl, rfl, by decide⟩
  obtain ⟨c, hc, hconstants, hpreamble⟩ := hread
  have hinside : c.EndsInConstant (smallestClass.take 11) := by
    refine ⟨[1], ?_, by rw [hpreamble]; rfl⟩
    rw [hconstants]
    have hgrammar : (Constant.utf8 (ModifiedUtf8.decode [0x41])).grammar ([1] ++ [0, 1, 0x41]) :=
      ⟨[0x41], by decide, rfl, rfl⟩
    exact .first (by decide) (by decide) hgrammar
  obtain ⟨htrailing, hcut⟩ := read_cut_or_extended hc
  exact ⟨c, hc, htrailing [0] (by decide), hinside,
    (hcut _ (List.take_prefix _ _) (by decide)).2.1 (by decide) hinside⟩

end ClassFile

end JvmDecompiler
