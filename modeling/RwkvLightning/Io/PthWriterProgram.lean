import RwkvLightning.Io.PthWriter
import RwkvLightning.Io.PthFormat
import RwkvLightning.Library.Cursor

/-!
# The program of the writer rebuilds its tensors

**Results.**
* `Rewrites`: what a piece of a program does to the stack of the parser, whatever stands
  before and behind it.
* `rewrites_tensorProgram`: the program of a tensor leaves its name and its record.
* `parse_program`: the parser returns the records of all tensors, in order.
-/

namespace RwkvLightning
namespace Pth
namespace Writer

open LittleEndian (encode slice field length_encode)
open Cursor (HasAt hasAt_append hasAt_cons hasAt_self)
open Pickle (Parser Value parseLoop dispatch findMark)

section Steps

variable {bytes : Bytes} {p p' p'' : Parser}

/-- The loop gets from one state of the parser to another. -/
def Leads (bytes : Bytes) (p p' : Parser) : Prop :=
  ∃ k, ∀ fuel, parseLoop bytes (fuel + k) p = parseLoop bytes fuel p'

theorem Leads.refl (p : Parser) : Leads bytes p p :=
  ⟨0, fun _ => rfl⟩

theorem Leads.trans (h : Leads bytes p p') (h' : Leads bytes p' p'') : Leads bytes p p'' := by
  obtain ⟨k, hk⟩ := h
  obtain ⟨k', hk'⟩ := h'
  refine ⟨k' + k, fun fuel => ?_⟩
  rw [← Nat.add_assoc, hk, hk']

/-- An opcode that does not stop the parser. -/
theorem leads_of_dispatch {op : UInt8} (hop : bytes[p.pos]? = some op)
    (h : dispatch bytes (p.at (p.pos + 1)) op = pure p') (hgo : p'.stopped = false) :
    Leads bytes p p' := by
  refine ⟨1, fun fuel => ?_⟩
  rw [parseLoop, hop]
  dsimp only
  rw [h, Checked.pure_bind, hgo]
  rfl

end Steps

section Cursor

variable {bytes : Bytes} {pos : Nat}

theorem readByte_eq {byte : UInt8} (h : bytes[pos]? = some byte) :
    Pickle.readByte bytes pos = pure (byte.toNat, pos + 1) := by
  have hlt := (List.getElem?_eq_some_iff.mp h).1
  rw [Pickle.readByte, errorIf, if_neg (by omega), Checked.pure_bind, byteAt, h]
  rfl

theorem readU16AtCursor_eq {n : Nat} (h : HasAt bytes pos (u16 n)) (hn : n < 2 ^ 16) :
    Pickle.readU16AtCursor bytes pos = pure (n, pos + 2) := by
  have hle := h.le_length
  rw [u16, length_encode] at hle
  have hfield : Pth.u16 bytes pos = n := h.field_eq hn
  rw [Pickle.readU16AtCursor, errorIf, if_neg (by omega), Checked.pure_bind, readU16_eq hle,
    hfield, Checked.pure_bind]

theorem readU32_hasAt {n : Nat} (h : HasAt bytes pos (u32 n)) (hn : n < 2 ^ 32) :
    pos + 4 ≤ bytes.length ∧ readU32 bytes pos = pure n := by
  have hle := h.le_length
  rw [u32, length_encode] at hle
  have hfield : Pth.u32 bytes pos = n := h.field_eq hn
  exact ⟨hle, by rw [readU32_eq hle, hfield]⟩

theorem readU32AtCursor_eq {n : Nat} (h : HasAt bytes pos (u32 n)) (hn : n < 2 ^ 32) :
    Pickle.readU32AtCursor bytes pos = pure (n, pos + 4) := by
  obtain ⟨hle, hread⟩ := readU32_hasAt h hn
  rw [Pickle.readU32AtCursor, errorIf, if_neg (by omega), Checked.pure_bind, hread,
    Checked.pure_bind]

theorem readI32AtCursor_eq {n : Nat} (h : HasAt bytes pos (u32 n)) (hn : n < 2 ^ 31) :
    Pickle.readI32AtCursor bytes pos = pure ((n : Int), pos + 4) := by
  obtain ⟨hle, hread⟩ := readU32_hasAt h (by omega)
  have hbmod : Int.bmod (n : Int) (2 ^ 32) = n := by
    rw [Int.bmod_eq_of_le (by omega) (by omega)]
  rw [Pickle.readI32AtCursor, errorIf, if_neg (by omega), Checked.pure_bind, hread,
    Checked.pure_bind, hbmod]

theorem readSizedString_eq {s : Bytes} (h : HasAt bytes pos s) :
    Pickle.readSizedString bytes pos s.length = pure (s, pos + s.length) := by
  have hle := h.le_length
  rw [Pickle.readSizedString, errorIf, if_neg (by omega), Checked.pure_bind, h.2]

theorem readLine_eq {line : Bytes} (h : HasAt bytes pos (line ++ [0x0A]))
    (hline : ∀ byte ∈ line, byte ≠ 0x0A) :
    Pickle.readLine bytes pos = (line, pos + line.length + 1) := by
  have hdrop : bytes.drop pos = line ++ 0x0A :: (bytes.drop pos).drop (line.length + 1) := by
    have hslice := h.2
    rw [slice, List.length_append, List.length_singleton] at hslice
    have htake := List.take_append_drop (line.length + 1) (bytes.drop pos)
    rw [hslice, List.append_assoc, List.singleton_append] at htake
    exact htake.symm
  have htakeWhile : (bytes.drop pos).takeWhile (· ≠ 0x0A) = line := by
    rw [hdrop, List.takeWhile_append_of_pos fun byte hbyte => decide_eq_true (hline byte hbyte),
      List.takeWhile_cons_of_neg (by decide), List.append_nil]
  have hlength := congrArg List.length hdrop
  rw [List.length_append, List.length_cons] at hlength
  rw [Pickle.readLine, htakeWhile, if_neg (by omega)]

end Cursor

section Pieces

/-- A piece of a program replaces the values `before` on top of the stack by `after`. -/
def Rewrites (part : Bytes) (before after : List Value) : Prop :=
  ∀ (bytes : Bytes) (p : Parser) (rest : List Value), p.stopped = false →
    HasAt bytes p.pos part → p.stack = before ++ rest →
    Leads bytes p { p with pos := p.pos + part.length, stack := after ++ rest }

variable {part part' : Bytes} {before between after : List Value}

theorem Rewrites.append (h : Rewrites part before between) (h' : Rewrites part' between after) :
    Rewrites (part ++ part') before after := by
  intro bytes p rest hgo hat hstack
  rw [hasAt_append] at hat
  have hfirst := h bytes p rest hgo hat.1 hstack
  have hsecond := h' bytes { p with pos := p.pos + part.length, stack := between ++ rest } rest hgo
    hat.2 rfl
  rw [List.length_append, ← Nat.add_assoc]
  exact hfirst.trans hsecond

/-- What lies below stays. -/
theorem Rewrites.frame (h : Rewrites part before after) (below : List Value) :
    Rewrites part (before ++ below) (after ++ below) := by
  intro bytes p rest hgo hat hstack
  rw [List.append_assoc] at hstack ⊢
  exact h bytes p (below ++ rest) hgo hat hstack

/-- A piece that pushes values. -/
theorem Rewrites.push (h : Rewrites part [] after) (below : List Value) :
    Rewrites part below (after ++ below) :=
  h.frame below

theorem rewrites_nil (values : List Value) : Rewrites [] values values := by
  intro bytes p rest _ _ hstack
  have hsame : { p with pos := p.pos + ([] : Bytes).length, stack := values ++ rest } = p := by
    rw [← hstack]
    rfl
  rw [hsame]
  exact Leads.refl p

/-- A piece that begins with its only opcode. -/
theorem rewrites_of_dispatch {op : UInt8}
    (h : ∀ (bytes : Bytes) (p : Parser) (rest : List Value), HasAt bytes p.pos part →
      p.stack = before ++ rest → dispatch bytes p op =
        pure { p with pos := p.pos + part.length, stack := after ++ rest }) :
    Rewrites (op :: part) before after := by
  intro bytes p rest hgo hat hstack
  rw [hasAt_cons] at hat
  have hstep := h bytes (p.at (p.pos + 1)) rest hat.2 hstack
  have hsame : p.pos + (op :: part).length = p.pos + 1 + part.length := by
    rw [List.length_cons]
    omega
  rw [hsame]
  exact leads_of_dispatch hat.1 hstep hgo

theorem rewrites_mark : Rewrites [0x28] [] [.mark] :=
  rewrites_of_dispatch fun _ p _ _ hstack => by
    rw [List.nil_append] at hstack
    rw [← hstack]
    rfl

theorem rewrites_dict : Rewrites [0x7D] [] [.dict] :=
  rewrites_of_dispatch fun _ p _ _ hstack => by
    rw [List.nil_append] at hstack
    rw [← hstack]
    rfl

theorem rewrites_false : Rewrites [0x89] [] [.bool false] :=
  rewrites_of_dispatch fun _ p _ _ hstack => by
    rw [List.nil_append] at hstack
    rw [← hstack]
    rfl

theorem rewrites_proto (version : UInt8) (values : List Value) :
    Rewrites [0x80, version] values values :=
  rewrites_of_dispatch fun bytes p rest hat hstack => by
    have hle := hat.le_length
    rw [List.length_singleton] at hle
    have hskip : dispatch bytes p 0x80 = (do
        let pos ← Pickle.skip bytes p.pos 1 "PROTO argument"
        pure (p.at pos)) := rfl
    rw [hskip, Pickle.skip, errorIf, if_neg (by omega), Checked.pure_bind, Checked.pure_bind,
      ← hstack]
    rfl

theorem rewrites_string {s : Bytes} (hs : s.length < 2 ^ 32) :
    Rewrites (pickleString s) [] [.string s] :=
  rewrites_of_dispatch fun bytes p rest hat hstack => by
    rw [hasAt_append] at hat
    have hlength : (u32 s.length).length = 4 := length_encode
    have hread : dispatch bytes p 0x58 = (do
        let size ← Pickle.readU32AtCursor bytes p.pos
        let text ← Pickle.readSizedString bytes size.2 size.1
        pure ((p.at text.2).push (.string text.1))) := rfl
    rw [hlength] at hat
    rw [hread, readU32AtCursor_eq hat.1 hs, Checked.pure_bind, readSizedString_eq hat.2,
      Checked.pure_bind, List.length_append, hlength, ← Nat.add_assoc]
    rw [List.nil_append] at hstack
    rw [← hstack]
    rfl

theorem rewrites_int {value : Int} (hlow : 0 ≤ value) (hhigh : value < 2 ^ 31) :
    Rewrites (pickleInt value) [] [.int value] := by
  obtain ⟨n, rfl⟩ := Int.eq_ofNat_of_zero_le hlow
  have hn : n < 2 ^ 31 := by omega
  rw [pickleInt]
  split
  · next hsmall =>
      refine rewrites_of_dispatch fun bytes p rest hat hstack => ?_
      rw [hasAt_cons] at hat
      have hread : dispatch bytes p 0x4B = (do
          let value ← Pickle.readByte bytes p.pos
          pure ((p.at value.2).push (.int value.1))) := rfl
      have hbyte : (UInt8.ofNat (n : Int).toNat).toNat = n := by
        rw [Int.toNat_natCast, UInt8.toNat_ofNat']
        omega
      rw [hread, readByte_eq hat.1, Checked.pure_bind, hbyte]
      rw [List.nil_append] at hstack
      rw [← hstack]
      rfl
  split
  · next hmiddle =>
      refine rewrites_of_dispatch fun bytes p rest hat hstack => ?_
      have hread : dispatch bytes p 0x4D = (do
          let value ← Pickle.readU16AtCursor bytes p.pos
          pure ((p.at value.2).push (.int value.1))) := rfl
      rw [Int.toNat_natCast] at hat ⊢
      rw [hread, readU16AtCursor_eq hat (by omega), Checked.pure_bind]
      rw [List.nil_append] at hstack
      rw [← hstack]
      rfl
  · refine rewrites_of_dispatch fun bytes p rest hat hstack => ?_
    have hread : dispatch bytes p 0x4A = (do
        let value ← Pickle.readI32AtCursor bytes p.pos
        pure ((p.at value.2).push (.int value.1))) := rfl
    have hmod : ((n : Int) % 2 ^ 32).toNat = n := by omega
    rw [hmod] at hat ⊢
    rw [hread, readI32AtCursor_eq hat hn, Checked.pure_bind]
    rw [List.nil_append] at hstack
    rw [← hstack]
    rfl

/-- A line of a `GLOBAL` opcode. -/
structure Line (line : Bytes) : Prop where
  nonempty : line ≠ []
  unbroken : ∀ byte ∈ line, byte ≠ 0x0A

theorem line_of_all {line : Bytes} (hne : line ≠ []) (h : line.all (· != 0x0A) = true) :
    Line line :=
  ⟨hne, fun byte hmem => bne_iff_ne.mp (List.all_eq_true.mp h byte hmem)⟩

theorem rewrites_global {module name : Bytes} (hmodule : Line module) (hname : Line name) :
    Rewrites (pickleGlobal module name) [] [.global { module := module, name := name }] :=
  rewrites_of_dispatch fun bytes p rest hat hstack => by
    have hsplit : module ++ 0x0A :: (name ++ [0x0A]) = module ++ [0x0A] ++ (name ++ [0x0A]) := by
      rw [List.append_assoc, List.singleton_append]
    rw [hsplit, hasAt_append] at hat
    have hlength : (module ++ [0x0A]).length = module.length + 1 := List.length_append
    have hread : dispatch bytes p 0x63 = Pickle.pushGlobal bytes p := rfl
    rw [hlength, ← Nat.add_assoc] at hat
    rw [hread, Pickle.pushGlobal, readLine_eq hat.1 hmodule.unbroken]
    dsimp only
    rw [readLine_eq hat.2 hname.unbroken, errorIf,
      if_neg (by rintro (hnil | hnil); exacts [hmodule.nonempty hnil, hname.nonempty hnil]),
      Checked.pure_bind, hsplit, List.length_append, hlength, List.length_append,
      List.length_singleton]
    rw [List.nil_append] at hstack
    rw [← hstack, ← Nat.add_assoc, ← Nat.add_assoc]
    rfl

/-- The topmost mark, when the values above it are none. -/
theorem findMark_eq {items rest : List Value} (h : ∀ value ∈ items, value.isMark = false) :
    findMark (items.reverse ++ .mark :: rest) = some (items, rest) := by
  have hall : ∀ value ∈ items.reverse, (!value.isMark) = true := fun value hvalue => by
    rw [h value (List.mem_reverse.mp hvalue)]
    rfl
  have hdrop : (items.reverse ++ Value.mark :: rest).dropWhile (fun value => !value.isMark) =
      .mark :: rest := by
    rw [List.dropWhile_append_of_pos hall]
    rfl
  have htake : (items.reverse ++ Value.mark :: rest).takeWhile (fun value => !value.isMark) =
      items.reverse := by
    rw [List.takeWhile_append_of_pos hall, List.takeWhile_cons_of_neg Bool.false_ne_true,
      List.append_nil]
  rw [findMark, hdrop, htake, List.reverse_reverse]

theorem rewrites_tuple {items : List Value} (h : ∀ value ∈ items, value.isMark = false) :
    Rewrites [0x74] (items.reverse ++ [.mark]) [.tuple items] :=
  rewrites_of_dispatch fun bytes p rest _ hstack => by
    have htuple : dispatch bytes p 0x74 = Pickle.makeTupleFromMark p := rfl
    rw [List.append_assoc, List.singleton_append] at hstack
    rw [htuple, Pickle.makeTupleFromMark, hstack, findMark_eq h]
    rfl

theorem rewrites_ints {values : List Int} (h : ∀ value ∈ values, 0 ≤ value ∧ value < 2 ^ 31) :
    Rewrites (pickleInts values) [] [.tuple (values.map .int)] := by
  have hall : ∀ (values : List Int), (∀ value ∈ values, 0 ≤ value ∧ value < 2 ^ 31) →
      ∀ below, Rewrites (values.flatMap pickleInt) below
        ((values.map Value.int).reverse ++ below) := by
    intro values
    induction values with
    | nil => exact fun _ below => rewrites_nil below
    | cons value values ih =>
        intro h below
        obtain ⟨hlow, hhigh⟩ := h value List.mem_cons_self
        have hrest := ih (fun value' hmem => h value' (List.mem_cons_of_mem _ hmem))
          (.int value :: below)
        rw [List.flatMap_cons, List.map_cons, List.reverse_cons, List.append_assoc]
        exact ((rewrites_int hlow hhigh).push below).append hrest
  have hmarks : ∀ value ∈ values.map Value.int, value.isMark = false := by
    intro value hmem
    obtain ⟨_, -, rfl⟩ := List.mem_map.mp hmem
    rfl
  rw [pickleInts, ← List.singleton_append]
  exact rewrites_mark.append ((hall values h [.mark]).append (rewrites_tuple hmarks))

end Pieces

section Tensors

variable {t : WriteTensor} {i n : Nat}

/-- The type of the elements. -/
def dtypeOf (t : WriteTensor) : TensorDType :=
  if t.bf16 then .bFloat16 else if t.fp16 then .float16 else .float32

theorem storageDtype_eq (t : WriteTensor) :
    Pickle.storageDtype { module := ascii "torch", name := storageName t } = some (dtypeOf t) := by
  rw [dtypeOf, storageName]
  split
  · decide
  · split <;> decide

theorem line_storageName (t : WriteTensor) : Line (storageName t) := by
  rw [storageName]
  split
  · exact line_of_all (by decide) (by decide)
  · split <;> exact line_of_all (by decide) (by decide)

theorem rewrites_storage {key location : Bytes} {size : Nat} (hsize : size < 2 ^ 64) :
    Rewrites [0x51]
      [.tuple [.string (ascii "storage"),
        .global { module := ascii "torch", name := storageName t }, .string key,
        .string location, .int size]]
      [.storage { key := key, size := size, dtype := dtypeOf t }] :=
  rewrites_of_dispatch fun bytes p rest _ hstack => by
    have hid : dispatch bytes p 0x51 = Pickle.makePersistentId p := rfl
    have hu64 : Pickle.toU64 (size : Int) = size := by
      rw [Pickle.toU64]
      omega
    rw [hid, Pickle.makePersistentId, hstack]
    dsimp only [List.singleton_append]
    rw [if_neg (by decide), storageDtype_eq, hu64]
    rfl

/-- The record of the tensor `i`, which has `n` elements. -/
def recordOf (i : Nat) (t : WriteTensor) (n : Nat) : TensorRecord where
  name := t.name
  dtype := dtypeOf t
  storageKey := decimal i
  storageSize := n
  storageOffset := 0
  shape := t.shape
  stride := (strides t.shape).1

theorem tupleToInts_eq (values : List Int) : Pickle.tupleToInts (values.map .int) = values := by
  have hall : (values.map Value.int).mapM Value.toInt? = some values := by
    induction values with
    | nil => rfl
    | cons value values ih =>
        rw [List.map_cons, List.mapM_cons, ih]
        rfl
  rw [Pickle.tupleToInts, hall]
  rfl

theorem length_strides (shape : List Int) : (strides shape).1.length = shape.length := by
  induction shape with
  | nil => rfl
  | cons d shape ih => rw [strides, List.length_cons, ih, List.length_cons]

theorem rewrites_reduce :
    Rewrites [0x52]
      [.tuple [.storage { key := decimal i, size := n, dtype := dtypeOf t }, .int 0,
        .tuple (t.shape.map .int), .tuple ((strides t.shape).1.map .int), .bool false, .dict],
        .global { module := ascii "torch._utils", name := ascii "_rebuild_tensor_v2" }]
      [.tensor { recordOf i t n with name := [] }] :=
  rewrites_of_dispatch fun bytes p rest _ hstack => by
    have hreduce : dispatch bytes p 0x52 = Pickle.reduce p := rfl
    rw [hreduce, Pickle.reduce, hstack]
    dsimp only [List.cons_append, List.nil_append]
    rw [if_neg (by decide), if_pos ⟨rfl, rfl⟩, Pickle.rebuildTensor, tupleToInts_eq,
      tupleToInts_eq, errorIf, if_neg (not_not_intro (length_strides t.shape).symm),
      Checked.pure_bind]
    rfl

/-- What the writer accepts of a tensor, as far as the program goes. -/
structure Writable (t : WriteTensor) (n : Nat) : Prop where
  name : t.name.length < 2 ^ 32
  shape : ∀ d ∈ t.shape, 0 ≤ d ∧ d < 2 ^ 31
  strides : ∀ d ∈ (strides t.shape).1, 0 ≤ d ∧ d < 2 ^ 31
  count : n < 2 ^ 31

/-- The persistent identity of a storage. -/
theorem rewrites_persistentId (hi : (decimal i).length < 2 ^ 32) (hn : n < 2 ^ 31)
    (below : List Value) :
    Rewrites ([0x28] ++ pickleString (ascii "storage") ++
        pickleGlobal (ascii "torch") (storageName t) ++ pickleString (decimal i) ++
        pickleString (ascii "cpu") ++ pickleInt n ++ [0x74, 0x51]) below
      (.storage { key := decimal i, size := n, dtype := dtypeOf t } :: below) := by
  let identity : List Value :=
    [.string (ascii "storage"), .global { module := ascii "torch", name := storageName t },
      .string (decimal i), .string (ascii "cpu"), .int n]
  have hitems :
      Rewrites [0x74] (identity.reverse ++ .mark :: below) (.tuple identity :: below) := by
    have htuple : Rewrites [0x74] (identity.reverse ++ [.mark]) [.tuple identity] := by
      refine rewrites_tuple fun value hmem => ?_
      simp only [identity, List.mem_cons, List.not_mem_nil, or_false] at hmem
      rcases hmem with rfl | rfl | rfl | rfl | rfl <;> rfl
    exact htuple.frame below
  have hstorage : Rewrites [0x51] (.tuple identity :: below)
      (.storage { key := decimal i, size := n, dtype := dtypeOf t } :: below) :=
    (rewrites_storage (t := t) (Nat.lt_trans hn (by decide))).frame below
  refine Rewrites.append ?_ (hitems.append hstorage)
  refine Rewrites.append ?_ ((rewrites_int (Int.natCast_nonneg n) (by omega)).push _)
  refine Rewrites.append ?_ ((rewrites_string (by decide)).push _)
  refine Rewrites.append ?_ ((rewrites_string hi).push _)
  refine Rewrites.append ?_ ((rewrites_global (line_of_all (by decide) (by decide))
    (line_storageName t)).push _)
  exact (rewrites_mark.push _).append ((rewrites_string (by decide)).push _)

/-- The program of a tensor leaves its name and its record. -/
theorem rewrites_tensorProgram (h : Writable t n) (hi : (decimal i).length < 2 ^ 32)
    (below : List Value) :
    Rewrites (tensorProgram i t n) below
      (.tensor { recordOf i t n with name := [] } :: .string t.name :: below) := by
  let arguments : List Value :=
    [.storage { key := decimal i, size := n, dtype := dtypeOf t }, .int 0,
      .tuple (t.shape.map .int), .tuple ((strides t.shape).1.map .int), .bool false, .dict]
  let rebuild : Value :=
    .global { module := ascii "torch._utils", name := ascii "_rebuild_tensor_v2" }
  have hitems : Rewrites [0x74] (arguments.reverse ++ .mark :: rebuild :: .string t.name :: below)
      (.tuple arguments :: rebuild :: .string t.name :: below) := by
    have htuple : Rewrites [0x74] (arguments.reverse ++ [.mark]) [.tuple arguments] := by
      refine rewrites_tuple fun value hmem => ?_
      simp only [arguments, List.mem_cons, List.not_mem_nil, or_false] at hmem
      rcases hmem with rfl | rfl | rfl | rfl | rfl | rfl <;> rfl
    exact htuple.frame (rebuild :: .string t.name :: below)
  have htensor : Rewrites [0x52] (.tuple arguments :: rebuild :: .string t.name :: below)
      (.tensor { recordOf i t n with name := [] } :: .string t.name :: below) :=
    rewrites_reduce.frame (.string t.name :: below)
  have hparts : tensorProgram i t n =
      pickleString t.name ++ pickleGlobal (ascii "torch._utils") (ascii "_rebuild_tensor_v2") ++
        [0x28] ++ ([0x28] ++ pickleString (ascii "storage") ++
          pickleGlobal (ascii "torch") (storageName t) ++ pickleString (decimal i) ++
          pickleString (ascii "cpu") ++ pickleInt n ++ [0x74, 0x51]) ++ pickleInt 0 ++
        pickleInts t.shape ++ pickleInts (strides t.shape).1 ++ [0x89] ++ [0x7D] ++
        ([0x74] ++ [0x52]) := by
    simp only [tensorProgram, List.append_assoc, List.cons_append, List.nil_append]
  rw [hparts]
  refine Rewrites.append ?_ (hitems.append htensor)
  refine Rewrites.append ?_ (rewrites_dict.push _)
  refine Rewrites.append ?_ (rewrites_false.push _)
  refine Rewrites.append ?_ ((rewrites_ints h.strides).push _)
  refine Rewrites.append ?_ ((rewrites_ints h.shape).push _)
  refine Rewrites.append ?_ ((rewrites_int (by decide) (by decide)).push _)
  refine Rewrites.append ?_ (rewrites_persistentId hi h.count _)
  refine Rewrites.append ?_ (rewrites_mark.push _)
  exact ((rewrites_string h.name).push _).append
    ((rewrites_global (line_of_all (by decide) (by decide))
      (line_of_all (by decide) (by decide))).push _)

end Tensors

section Program

variable {t : WriteTensor} {tensors : List WriteTensor} {i : Nat}

/-- The number of elements of a shape. -/
def elementCount (shape : List Int) : Nat :=
  (shape.map Int.toNat).prod

/-- What the checks of the writer let pass. -/
structure Accepted (t : WriteTensor) : Prop where
  dtype : (t.fp16 && t.bf16) = false
  dims : ∀ d ∈ t.shape, 0 < d
  count : elementCount t.shape < 2 ^ 31
  data : t.data.length = elementCount t.shape * elementSize t

theorem countElements_eq_ok {shape : List Int} {m n : Nat} (hm : m < 2 ^ 31)
    (h : countElements m shape = .ok n) :
    n = m * elementCount shape ∧ n < 2 ^ 31 ∧ ∀ d ∈ shape, 0 < d := by
  induction shape generalizing m with
  | nil =>
      obtain rfl := Except.ok.inj h
      exact ⟨(Nat.mul_one m).symm, hm, fun _ hmem => absurd hmem List.not_mem_nil⟩
  | cons d shape ih =>
      rw [countElements] at h
      split at h
      · cases h
      next hd =>
      have hpos : 0 < d.toNat := by omega
      have hle : m * d.toNat ≤ 2 ^ 31 - 1 :=
        (Nat.le_div_iff_mul_le hpos).mp (Nat.le_of_not_lt fun hlt => hd (Or.inr hlt))
      obtain ⟨hn, hlt, hdims⟩ := ih (by omega) h
      refine ⟨?_, hlt, fun d' hmem => ?_⟩
      · rw [hn, elementCount, elementCount, List.map_cons, List.prod_cons, Nat.mul_assoc]
      · rcases List.mem_cons.mp hmem with rfl | hmem
        · omega
        · exact hdims d' hmem

theorem elementCount_cons (d : Int) (shape : List Int) :
    elementCount (d :: shape) = d.toNat * elementCount shape := by
  rw [elementCount, List.map_cons, List.prod_cons, elementCount]

theorem elementCount_pos {shape : List Int} (h : ∀ d ∈ shape, 0 < d) : 0 < elementCount shape := by
  induction shape with
  | nil => exact Nat.one_pos
  | cons d shape ih =>
      have hd := h d List.mem_cons_self
      rw [elementCount_cons]
      exact Nat.mul_pos (by omega) (ih fun d' hmem => h d' (List.mem_cons_of_mem _ hmem))

/-- A dimension is at most the number of elements. -/
theorem le_elementCount {shape : List Int} (h : ∀ d ∈ shape, 0 < d) :
    ∀ d ∈ shape, d ≤ elementCount shape := by
  induction shape with
  | nil => exact fun _ hmem => absurd hmem List.not_mem_nil
  | cons d shape ih =>
      have hd := h d List.mem_cons_self
      have hrest := fun d' hmem => h d' (List.mem_cons_of_mem d hmem)
      intro d' hmem
      rw [elementCount_cons]
      rcases List.mem_cons.mp hmem with rfl | hmem
      · have hle := Nat.le_mul_of_pos_right d'.toNat (elementCount_pos hrest)
        omega
      · have hle := Nat.le_mul_of_pos_left (elementCount shape) (by omega : 0 < d.toNat)
        have hbound := ih hrest d' hmem
        omega

/-- The strides are products of the dimensions behind them. -/
theorem strides_spec {shape : List Int} (h : ∀ d ∈ shape, 0 < d) :
    (strides shape).2 = elementCount shape ∧
      ∀ d ∈ (strides shape).1, 0 < d ∧ d ≤ elementCount shape := by
  induction shape with
  | nil => exact ⟨rfl, fun _ hmem => absurd hmem List.not_mem_nil⟩
  | cons d shape ih =>
      have hd := h d List.mem_cons_self
      have hrest := fun d' hmem => h d' (List.mem_cons_of_mem d hmem)
      obtain ⟨hstep, hall⟩ := ih hrest
      have hpos := elementCount_pos hrest
      have hle : elementCount shape ≤ elementCount (d :: shape) := by
        rw [elementCount_cons]
        exact Nat.le_mul_of_pos_left _ (by omega)
      rw [strides]
      refine ⟨?_, fun d' hmem => ?_⟩
      · have hcast : (d.toNat : Int) = d := Int.toNat_of_nonneg (Int.le_of_lt hd)
        rw [hstep, elementCount_cons, Nat.cast_mul, hcast, Int.mul_comm]
      · rcases List.mem_cons.mp hmem with rfl | hmem
        · rw [hstep]
          omega
        · have hbound := hall d' hmem
          omega

theorem Accepted.writable (h : Accepted t) (hname : t.name.length < 2 ^ 32) :
    Writable t (elementCount t.shape) where
  name := hname
  shape := fun d hd => by
    have hpos := h.dims d hd
    have hle := le_elementCount h.dims d hd
    have hcount := h.count
    omega
  strides := fun d hd => by
    have hstride := (strides_spec h.dims).2 d hd
    have hcount := h.count
    omega
  count := h.count

/-- The entry of the tensor `i`. -/
def entryOf (i : Nat) (t : WriteTensor) : Entry where
  name := ascii "archive/data/" ++ decimal i
  data := t.data
  crc := 0
  offset := 0

theorem writeTensor_eq_ok {part : Bytes × Entry} (h : writeTensor i t = .ok part) :
    Accepted t ∧ part = (tensorProgram i t (elementCount t.shape), entryOf i t) := by
  rw [writeTensor] at h
  split at h
  · cases h
  next hdtype =>
  split at h
  · cases h
  next n hn =>
  split at h
  · cases h
  next hdata =>
  obtain rfl := Except.ok.inj h
  obtain ⟨rfl, hcount, hdims⟩ := countElements_eq_ok (by decide) hn
  rw [Nat.one_mul] at hcount hdata ⊢
  exact ⟨⟨Bool.eq_false_of_not_eq_true hdtype, hdims, hcount, not_not.mp hdata⟩, rfl⟩

/-- The programs, the entries and the records of the tensors from index `i` on. -/
def programFrom : Nat → List WriteTensor → Bytes
  | _, [] => []
  | i, t :: tensors => tensorProgram i t (elementCount t.shape) ++ programFrom (i + 1) tensors

def entriesFrom : Nat → List WriteTensor → List Entry
  | _, [] => []
  | i, t :: tensors => entryOf i t :: entriesFrom (i + 1) tensors

def recordsFrom : Nat → List WriteTensor → List TensorRecord
  | _, [] => []
  | i, t :: tensors => recordOf i t (elementCount t.shape) :: recordsFrom (i + 1) tensors

theorem writeTensors_eq_ok {parts : Bytes × List Entry} (h : writeTensors i tensors = .ok parts) :
    (∀ t ∈ tensors, Accepted t) ∧ parts = (programFrom i tensors, entriesFrom i tensors) := by
  induction tensors generalizing i parts with
  | nil => exact ⟨fun _ hmem => absurd hmem List.not_mem_nil, (Except.ok.inj h).symm⟩
  | cons t tensors ih =>
      rw [writeTensors] at h
      split at h
      · cases h
      next first hfirst =>
      split at h
      · cases h
      next rest hrest =>
      obtain ⟨haccepted, rfl⟩ := writeTensor_eq_ok hfirst
      obtain ⟨hall, rfl⟩ := ih hrest
      obtain rfl := Except.ok.inj h
      refine ⟨fun t' hmem => ?_, rfl⟩
      rcases List.mem_cons.mp hmem with rfl | hmem
      · exact haccepted
      · exact hall t' hmem

/-- What the tensors leave between the mark and `SETITEMS`. -/
def itemsFrom : Nat → List WriteTensor → List Value
  | _, [] => []
  | i, t :: tensors =>
      .string t.name :: .tensor { recordOf i t (elementCount t.shape) with name := [] } ::
        itemsFrom (i + 1) tensors

theorem itemsFrom_spec (i : Nat) (tensors : List WriteTensor) :
    (∀ value ∈ itemsFrom i tensors, value.isMark = false) ∧ (itemsFrom i tensors).length % 2 = 0 ∧
      Pickle.tensorItems (itemsFrom i tensors) = some (recordsFrom i tensors) := by
  induction tensors generalizing i with
  | nil => exact ⟨fun _ hmem => absurd hmem List.not_mem_nil, rfl, rfl⟩
  | cons t tensors ih =>
      obtain ⟨hmarks, heven, hitems⟩ := ih (i + 1)
      rw [itemsFrom]
      refine ⟨fun value hmem => ?_, ?_, ?_⟩
      · rcases List.mem_cons.mp hmem with rfl | hmem
        · rfl
        rcases List.mem_cons.mp hmem with rfl | hmem
        · rfl
        · exact hmarks value hmem
      · rw [List.length_cons, List.length_cons]
        omega
      · rw [Pickle.tensorItems, hitems]
        rfl

theorem length_decimal (hi : i < 10 ^ 10) : (decimal i).length < 2 ^ 32 := by
  have hle := (Nat.length_toDigits_le_iff (b := 10) (by decide) (by decide : 0 < 10)).mpr hi
  have hlength : (decimal i).length = (Nat.toDigits 10 i).length := by
    rw [decimal, ascii, List.length_map, Nat.toString_eq_ofList_toDigits, String.toList_ofList]
  omega

theorem rewrites_programFrom (h : ∀ t ∈ tensors, Writable t (elementCount t.shape))
    (hi : i + tensors.length ≤ 10 ^ 10) (below : List Value) :
    Rewrites (programFrom i tensors) below ((itemsFrom i tensors).reverse ++ below) := by
  induction tensors generalizing i below with
  | nil => exact rewrites_nil below
  | cons t tensors ih =>
      rw [List.length_cons] at hi
      have hfirst := rewrites_tensorProgram (h t List.mem_cons_self)
        (length_decimal (by omega : i < 10 ^ 10)) below
      have hrest := ih (i := i + 1) (fun t' hmem => h t' (List.mem_cons_of_mem _ hmem)) (by omega)
        (.tensor { recordOf i t (elementCount t.shape) with name := [] } :: .string t.name :: below)
      rw [itemsFrom, List.reverse_cons, List.reverse_cons, List.append_assoc, List.append_assoc]
      exact hfirst.append hrest

/-- The program of a file. -/
def programOf (tensors : List WriteTensor) : Bytes :=
  [0x80, 2, 0x7D, 0x28] ++ programFrom 0 tensors ++ [0x75, 0x2E]

/-- The parser returns the records of the tensors. -/
theorem parse_program (h : ∀ t ∈ tensors, Writable t (elementCount t.shape))
    (hcount : tensors.length ≤ 10 ^ 10) :
    Pickle.parse (programOf tensors) = pure (recordsFrom 0 tensors) := by
  obtain ⟨hmarks, heven, hitems⟩ := itemsFrom_spec 0 tensors
  have hbody : Rewrites ([0x80, 2] ++ [0x7D] ++ [0x28] ++ programFrom 0 tensors) []
      ((itemsFrom 0 tensors).reverse ++ .mark :: [.dict]) := by
    refine Rewrites.append ?_ (rewrites_programFrom h (by omega) [.mark, .dict])
    exact ((rewrites_proto 2 []).append rewrites_dict).append (rewrites_mark.push [.dict])
  have hself : HasAt (programOf tensors) 0
      ([0x80, 2] ++ [0x7D] ++ [0x28] ++ programFrom 0 tensors ++ [0x75, 0x2E]) := hasAt_self
  rw [hasAt_append, hasAt_cons, hasAt_cons, Nat.zero_add] at hself
  obtain ⟨hbodyAt, hsetitems, hstop, -⟩ := hself
  generalize ([0x80, 2] ++ [0x7D] ++ [0x28] ++ programFrom 0 tensors : Bytes) = body at *
  have hrun := hbody (programOf tensors) Parser.start [] rfl hbodyAt rfl
  have hset : Leads (programOf tensors)
      { Parser.start with
        pos := Parser.start.pos + body.length
        stack := (itemsFrom 0 tensors).reverse ++ .mark :: [.dict] ++ [] }
      { Parser.start with
        pos := body.length + 1
        stack := [.dict]
        tensors := recordsFrom 0 tensors } := by
    have hop : (programOf tensors)[Parser.start.pos + body.length]? = some 0x75 := by
      rw [← hsetitems]
      exact congrArg _ (Nat.zero_add _)
    refine leads_of_dispatch hop ?_ rfl
    have hdispatch : ∀ p : Parser, dispatch (programOf tensors) p 0x75 = Pickle.setitems p :=
      fun _ => rfl
    rw [hdispatch, Pickle.setitems]
    dsimp only [Parser.at]
    rw [List.append_nil, findMark_eq hmarks]
    dsimp only
    have hdict : Value.dict.isDict = true := rfl
    rw [if_pos hdict, errorIf, if_neg (not_not_intro heven), Checked.pure_bind, hitems]
    dsimp only [Parser.start, Option.getD_some, List.nil_append]
    rw [Nat.zero_add]
  obtain ⟨k, hk⟩ := hrun.trans hset
  have hend : ∀ fuel, parseLoop (programOf tensors) (fuel + 1)
      { Parser.start with
        pos := body.length + 1
        stack := [.dict]
        tensors := recordsFrom 0 tensors } = pure (recordsFrom 0 tensors) := by
    intro fuel
    rw [parseLoop]
    dsimp only
    rw [hstop]
    rfl
  have hfuel : parseLoop (programOf tensors) ((programOf tensors).length + (1 + k)) Parser.start =
      parseLoop (programOf tensors) (programOf tensors).length Parser.start :=
    Pickle.parseLoop_fuel (Nat.le_add_left _ _) (1 + k)
  rw [Pickle.parse, ← hfuel, ← Nat.add_assoc, hk, hend]

end Program

end Writer
end Pth
end RwkvLightning
