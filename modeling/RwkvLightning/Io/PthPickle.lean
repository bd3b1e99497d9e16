import RwkvLightning.Io.PthArchive

/-!
# The pickle program of a PTH file

`PickleTensorParser` of `pth_tensor.cpp`: a machine with a stack and a memo that runs
the opcodes of `data.pkl` and collects the tensors of the dictionaries that it meets.

**Stack.**  The top of the stack is the head of the list.

**Failures.**  What the parser throws is caught by its caller and becomes a status
error with the same text.

**Results.**  `parseLoop_fuel`: an opcode takes at least one byte, so the loop ends
within the length of the program.
-/

namespace RwkvLightning
namespace Pth

/-- The bytes of a string literal. -/
def ascii (text : String) : Bytes :=
  text.toList.map fun c => UInt8.ofNat c.toNat

/-- `TensorDType`. -/
inductive TensorDType where
  | bFloat16
  | float32
  | float16
deriving DecidableEq, Repr

/-- `TensorRecord`. -/
structure TensorRecord where
  name : Bytes
  dtype : TensorDType
  storageKey : Bytes
  storageSize : Nat
  storageOffset : Nat
  shape : List Int
  stride : List Int
deriving DecidableEq, Repr

namespace Pickle

structure GlobalRef where
  module : Bytes
  name : Bytes
deriving DecidableEq, Repr

structure StorageRef where
  key : Bytes
  size : Nat
  dtype : TensorDType
deriving DecidableEq, Repr

/-- `Value`; a value without a kind is never pushed. -/
inductive Value where
  | mark
  | int (i : Int)
  | bool (b : Bool)
  | string (s : Bytes)
  | global (global : GlobalRef)
  | tuple (items : List Value)
  | dict
  | orderedDict
  | storage (storage : StorageRef)
  | tensor (tensor : TensorRecord)
deriving Repr

def Value.isMark : Value → Bool
  | mark => true
  | _ => false

def Value.toInt? : Value → Option Int
  | int i => some i
  | _ => none

def Value.isDict : Value → Bool
  | dict => true
  | orderedDict => true
  | _ => false

/-- The members of `PickleTensorParser`, less the bytes. -/
structure Parser where
  pos : Nat
  stopped : Bool
  stack : List Value
  /-- What was put last comes first. -/
  memo : List (Nat × Value)
  tensors : List TensorRecord

/-- A new parser. -/
def Parser.start : Parser where
  pos := 0
  stopped := false
  stack := []
  memo := []
  tensors := []

section Cursor

variable (bytes : Bytes) (pos : Nat)

/-- `skip`. -/
def skip (n : Nat) (what : String) : Io Nat := do
  errorIf (bytes.length < pos + n) ("truncated " ++ what) []
  pure (pos + n)

/-- `read_byte`, and the position after it. -/
def readByte : Io (Nat × Nat) := do
  errorIf (bytes.length ≤ pos) "truncated pickle byte" []
  let byte ← byteAt bytes pos
  pure (byte, pos + 1)

/-- `read_u16_at_cursor`. -/
def readU16AtCursor : Io (Nat × Nat) := do
  errorIf (bytes.length < pos + 2) "truncated pickle uint16" []
  let value ← readU16 bytes pos
  pure (value, pos + 2)

/-- `read_u32_at_cursor`. -/
def readU32AtCursor : Io (Nat × Nat) := do
  errorIf (bytes.length < pos + 4) "truncated pickle uint32" []
  let value ← readU32 bytes pos
  pure (value, pos + 4)

/-- `read_i32_at_cursor`. -/
def readI32AtCursor : Io (Int × Nat) := do
  errorIf (bytes.length < pos + 4) "truncated pickle int32" []
  let value ← readU32 bytes pos
  pure (Int.bmod value (2 ^ 32), pos + 4)

/-- `read_long_at_cursor`: `n` bytes in two's complement. -/
def readLongAtCursor (n : Nat) (what : String) : Io (Int × Nat) := do
  errorIf (bytes.length < pos + n) ("truncated pickle " ++ what) []
  if n = 0 then pure (0, pos)
  else do
    errorIf (8 < n) ("pickle " ++ what ++ " does not fit int64") []
    pure (Int.bmod (LittleEndian.field bytes pos n) (256 ^ n), pos + n)

/-- `read_sized_string`. -/
def readSizedString (n : Nat) : Io (Bytes × Nat) := do
  errorIf (bytes.length < pos + n) "truncated pickle string" []
  pure (LittleEndian.slice bytes pos n, pos + n)

/-- `read_line`; a line without its end is empty. -/
def readLine : Bytes × Nat :=
  let rest := bytes.drop pos
  let line := rest.takeWhile (· ≠ 0x0A)
  if line.length = rest.length then ([], max pos bytes.length)
  else (line, pos + line.length + 1)

end Cursor

section Stack

variable (p : Parser)

def Parser.push (value : Value) : Parser :=
  { p with stack := value :: p.stack }

/-- The parser with its cursor at `pos`. -/
def Parser.at (pos : Nat) : Parser :=
  { p with pos := pos }

/-- `find_mark`: the values above the topmost mark, the lowest first, and those below. -/
def findMark (stack : List Value) : Option (List Value × List Value) :=
  match stack.dropWhile (fun value => !value.isMark) with
  | [] => none
  | _ :: below => some ((stack.takeWhile fun value => !value.isMark).reverse, below)

/-- `make_tuple_n`. -/
def makeTupleN (n : Nat) : Io Parser := do
  errorIf (p.stack.length < n) "tuple opcode underflow" []
  pure (Parser.push { p with stack := p.stack.drop n } (.tuple (p.stack.take n).reverse))

/-- `make_tuple_from_mark`. -/
def makeTupleFromMark : Io Parser :=
  match findMark p.stack with
  | none => error "TUPLE without MARK" []
  | some (items, below) => pure (Parser.push { p with stack := below } (.tuple items))

/-- `storage_dtype`. -/
def storageDtype (global : GlobalRef) : Option TensorDType :=
  if global.module ≠ ascii "torch" then none
  else if global.name = ascii "BFloat16Storage" then some .bFloat16
  else if global.name = ascii "HalfStorage" then some .float16
  else if global.name = ascii "FloatStorage" then some .float32
  else none

/-- `static_cast<std::uint64_t>`. -/
def toU64 (i : Int) : Nat :=
  (i % 2 ^ 64).toNat

/-- `make_persistent_id`. -/
def makePersistentId : Io Parser :=
  match p.stack with
  | .tuple items :: rest =>
      match items with
      | [.string kind, .global global, .string key, _, .int size] =>
          if kind ≠ ascii "storage" then error "unsupported persistent id shape" []
          else
            match storageDtype global with
            | some dtype =>
                pure (Parser.push { p with stack := rest }
                  (.storage { key := key, size := toU64 size, dtype := dtype }))
            | none =>
                error ("unsupported storage dtype; this reader supports " ++
                  "torch.BFloat16Storage and torch.HalfStorage / torch.FloatStorage, got: ")
                  (global.module ++ ascii "." ++ global.name)
      | _ => error "unsupported persistent id shape" []
  | _ => error "BINPERSID expects a tuple persistent id" []

/-- `tuple_to_ints`; empty when an item is no integer. -/
def tupleToInts (items : List Value) : List Int :=
  (items.mapM Value.toInt?).getD []

/-- The case `_rebuild_tensor_v2` of `reduce`. -/
def rebuildTensor (items rest : List Value) : Io Parser :=
  match items with
  | .storage storage :: .int offset :: .tuple shape :: .tuple stride :: _ => do
      errorIf ((tupleToInts shape).length ≠ (tupleToInts stride).length)
        "tensor shape / stride rank mismatch" []
      pure (Parser.push { p with stack := rest }
        (.tensor
          { name := []
            dtype := storage.dtype
            storageKey := storage.key
            storageSize := storage.size
            storageOffset := toU64 offset
            shape := tupleToInts shape
            stride := tupleToInts stride }))
  | _ => error "unsupported _rebuild_tensor_v2 arguments" []

/-- `reduce`. -/
def reduce : Io Parser :=
  match p.stack with
  | args :: callable :: rest =>
      match callable, args with
      | .global global, .tuple items =>
          if global.module = ascii "collections" ∧ global.name = ascii "OrderedDict" then
            pure (Parser.push { p with stack := rest } .orderedDict)
          else if global.module = ascii "torch._utils" ∧
              global.name = ascii "_rebuild_tensor_v2" then
            rebuildTensor p items rest
          else
            error "unsupported REDUCE callable: "
              (global.module ++ ascii "." ++ global.name)
      | _, _ => error "unsupported REDUCE operands" []
  | _ => error "REDUCE stack underflow" []

/-- The tensors of a dictionary whose keys are strings and whose values are tensors. -/
def tensorItems : List Value → Option (List TensorRecord)
  | [] => some []
  | .string name :: .tensor tensor :: items =>
      (tensorItems items).map ({ tensor with name := name } :: ·)
  | _ => none

/-- `setitems`. -/
def setitems : Io Parser :=
  match findMark p.stack with
  | some (items, container :: rest) =>
      if container.isDict then do
        errorIf (items.length % 2 ≠ 0) "SETITEMS requires key/value pairs" []
        pure { p with
          stack := container :: rest
          tensors := p.tensors ++ (tensorItems items).getD [] }
      else error "SETITEMS without dict / OrderedDict and MARK" []
  | _ => error "SETITEMS without dict / OrderedDict and MARK" []

/-- `setitem`, which drops the key and the value. -/
def setitem : Io Parser :=
  match p.stack with
  | _ :: _ :: container :: rest =>
      if container.isDict then pure { p with stack := container :: rest }
      else error "SETITEM target must be dict / OrderedDict" []
  | _ => error "SETITEM stack underflow" []

/-- `build`, which drops the state. -/
def build : Io Parser :=
  match p.stack with
  | _ :: object :: rest => pure { p with stack := object :: rest }
  | _ => error "BUILD stack underflow" []

/-- `memo_put`. -/
def memoPut (index : Nat) : Io Parser :=
  match p.stack with
  | [] => error "BINPUT stack underflow" []
  | value :: _ => pure { p with memo := (index, value) :: p.memo }

/-- `memo_get`. -/
def memoGet (index : Nat) : Io Parser :=
  match p.memo.lookup index with
  | none => error ("BINGET missing memo index " ++ toString index) []
  | some value => pure (p.push value)

end Stack

section Opcodes

variable (bytes : Bytes) (p : Parser)

/-- `push_global`. -/
def pushGlobal : Io Parser := do
  let module := readLine bytes p.pos
  let name := readLine bytes module.2
  errorIf (module.1 = [] ∨ name.1 = []) "malformed GLOBAL opcode" []
  pure ((p.at name.2).push (.global { module := module.1, name := name.1 }))

/-- `hex`. -/
def hex (value : Nat) : String :=
  let digit (n : Nat) : Char := "0123456789abcdef".toList.getD n '0'
  String.ofList [digit (value / 16 % 16), digit (value % 16)]

/-- `dispatch`, with the cursor behind the opcode. -/
def dispatch (op : UInt8) : Io Parser :=
  if op = 0x80 then do
    let pos ← skip bytes p.pos 1 "PROTO argument"
    pure (p.at pos)
  else if op = 0x7D then pure (p.push .dict)
  else if op = 0x28 then pure (p.push .mark)
  else if op = 0x71 then do
    let index ← readByte bytes p.pos
    memoPut (p.at index.2) index.1
  else if op = 0x72 then do
    let index ← readU32AtCursor bytes p.pos
    memoPut (p.at index.2) index.1
  else if op = 0x68 then do
    let index ← readByte bytes p.pos
    memoGet (p.at index.2) index.1
  else if op = 0x6A then do
    let index ← readU32AtCursor bytes p.pos
    memoGet (p.at index.2) index.1
  else if op = 0x58 then do
    let size ← readU32AtCursor bytes p.pos
    let text ← readSizedString bytes size.2 size.1
    pure ((p.at text.2).push (.string text.1))
  else if op = 0x63 then pushGlobal bytes p
  else if op = 0x4B then do
    let value ← readByte bytes p.pos
    pure ((p.at value.2).push (.int value.1))
  else if op = 0x4D then do
    let value ← readU16AtCursor bytes p.pos
    pure ((p.at value.2).push (.int value.1))
  else if op = 0x4A then do
    let value ← readI32AtCursor bytes p.pos
    pure ((p.at value.2).push (.int value.1))
  else if op = 0x8A then do
    let size ← readByte bytes p.pos
    let value ← readLongAtCursor bytes size.2 size.1 "LONG1"
    pure ((p.at value.2).push (.int value.1))
  else if op = 0x8B then do
    let size ← readU32AtCursor bytes p.pos
    let value ← readLongAtCursor bytes size.2 size.1 "LONG4"
    pure ((p.at value.2).push (.int value.1))
  else if op = 0x74 then makeTupleFromMark p
  else if op = 0x29 then pure (p.push (.tuple []))
  else if op = 0x85 then makeTupleN p 1
  else if op = 0x86 then makeTupleN p 2
  else if op = 0x87 then makeTupleN p 3
  else if op = 0x88 then pure (p.push (.bool true))
  else if op = 0x89 then pure (p.push (.bool false))
  else if op = 0x51 then makePersistentId p
  else if op = 0x52 then reduce p
  else if op = 0x73 then setitem p
  else if op = 0x75 then setitems p
  else if op = 0x62 then build p
  else if op = 0x2E then pure { p with stopped := true }
  else
    error ("unsupported pickle opcode 0x" ++ hex op.toNat ++ " at byte " ++
      toString (p.pos - 1)) []

end Opcodes

/-- The loop of `parse`. -/
def parseLoop (bytes : Bytes) : Nat → Parser → Io (List TensorRecord)
  | 0, _ => error "pickle STOP not found" []
  | fuel + 1, p =>
      match bytes[p.pos]? with
      | none => error "pickle STOP not found" []
      | some op => do
          let p ← dispatch bytes (p.at (p.pos + 1)) op
          if p.stopped then pure p.tensors else parseLoop bytes fuel p

/-- `parse`; an opcode takes at least one byte. -/
def parse (bytes : Bytes) : Io (List TensorRecord) :=
  parseLoop bytes bytes.length Parser.start

section Fuel

variable {α : Type} {bytes : Bytes} {pos : Nat}

/-- A step that ends with a parser has not moved the cursor back. -/
def Moves (pos : Nat) (c : Io Parser) : Prop :=
  ∀ p', c.result = .ok p' → pos ≤ p'.pos

theorem moves_pure {p : Parser} (h : pos ≤ p.pos) : Moves pos (pure p) := by
  rintro p' hp'
  exact Except.ok.inj hp' ▸ h

theorem moves_error (message : String) (subject : Bytes) :
    Moves pos (error message subject) := by
  rintro p' hp'
  cases hp'

theorem moves_ite {c : Prop} [Decidable c] {x y : Io Parser} (hx : Moves pos x)
    (hy : Moves pos y) : Moves pos (if c then x else y) := by
  split
  · exact hx
  · exact hy

theorem moves_bind {c : Io α} {f : α → Io Parser}
    (h : ∀ a, c.result = .ok a → Moves pos (f a)) : Moves pos (c >>= f) := by
  rintro p' hp'
  obtain ⟨a, ha, hf⟩ := Checked.result_bind_eq_ok hp'
  exact h a ha p' hf

/-- A read whose result is paired with the position after it. -/
theorem moves_read {c : Io (α × Nat)} {f : α × Nat → Io Parser}
    (hc : ∀ r, c.result = .ok r → pos ≤ r.2) (hf : ∀ r, pos ≤ r.2 → Moves pos (f r)) :
    Moves pos (c >>= f) :=
  moves_bind fun r hr => hf r (hc r hr)

/-- A check, a read and the position behind what was read. -/
theorem read_le {β : Type} {c : Prop} [Decidable c] {message : String} {read : Io α}
    {value : α → β} {n : Nat} {r : β × Nat}
    (h : (errorIf c message [] >>= fun _ => read >>= fun a =>
      (pure (value a, pos + n) : Io (β × Nat))).result = .ok r) : pos ≤ r.2 := by
  obtain ⟨-, -, hread⟩ := Checked.result_bind_eq_ok h
  obtain ⟨a, -, hr⟩ := Checked.result_bind_eq_ok hread
  obtain rfl := Except.ok.inj hr
  exact Nat.le_add_right _ _

theorem readLongAtCursor_le {n : Nat} {what : String} {r : Int × Nat}
    (h : (readLongAtCursor bytes pos n what).result = .ok r) : pos ≤ r.2 := by
  obtain ⟨-, -, hread⟩ := Checked.result_bind_eq_ok h
  split at hread
  · obtain rfl := Except.ok.inj hread
    exact le_rfl
  · obtain ⟨-, -, hr⟩ := Checked.result_bind_eq_ok hread
    obtain rfl := Except.ok.inj hr
    exact Nat.le_add_right _ _

theorem readSizedString_le {n : Nat} {r : Bytes × Nat}
    (h : (readSizedString bytes pos n).result = .ok r) : pos ≤ r.2 := by
  obtain ⟨-, -, hr⟩ := Checked.result_bind_eq_ok h
  obtain rfl := Except.ok.inj hr
  exact Nat.le_add_right _ _

theorem moves_makeTupleN (p : Parser) (n : Nat) : Moves p.pos (makeTupleN p n) :=
  moves_bind fun _ _ => moves_pure le_rfl

theorem moves_makeTupleFromMark (p : Parser) : Moves p.pos (makeTupleFromMark p) := by
  rw [makeTupleFromMark]
  split
  · exact moves_error _ _
  · exact moves_pure le_rfl

theorem moves_makePersistentId (p : Parser) : Moves p.pos (makePersistentId p) := by
  rw [makePersistentId]
  split
  · split
    · refine moves_ite (moves_error _ _) ?_
      split
      · exact moves_pure le_rfl
      · exact moves_error _ _
    · exact moves_error _ _
  · exact moves_error _ _

theorem moves_rebuildTensor (p : Parser) (items rest : List Value) :
    Moves p.pos (rebuildTensor p items rest) := by
  rw [rebuildTensor.eq_def]
  split
  · exact moves_bind fun _ _ => moves_pure le_rfl
  · exact moves_error _ _

theorem moves_reduce (p : Parser) : Moves p.pos (reduce p) := by
  rw [reduce]
  split
  · split
    · refine moves_ite (moves_pure le_rfl) (moves_ite ?_ (moves_error _ _))
      exact moves_rebuildTensor p _ _
    · exact moves_error _ _
  · exact moves_error _ _

theorem moves_setitems (p : Parser) : Moves p.pos (setitems p) := by
  rw [setitems]
  split
  · exact moves_ite (moves_bind fun _ _ => moves_pure le_rfl) (moves_error _ _)
  · exact moves_error _ _

theorem moves_setitem (p : Parser) : Moves p.pos (setitem p) := by
  rw [setitem]
  split
  · exact moves_ite (moves_pure le_rfl) (moves_error _ _)
  · exact moves_error _ _

theorem moves_build (p : Parser) : Moves p.pos (build p) := by
  rw [build]
  split
  · exact moves_pure le_rfl
  · exact moves_error _ _

theorem moves_memoPut (p : Parser) (index : Nat) : Moves p.pos (memoPut p index) := by
  rw [memoPut]
  split
  · exact moves_error _ _
  · exact moves_pure le_rfl

theorem moves_memoGet (p : Parser) (index : Nat) : Moves p.pos (memoGet p index) := by
  rw [memoGet]
  split
  · exact moves_error _ _
  · exact moves_pure le_rfl

theorem readLine_le (h : pos ≤ bytes.length) :
    pos ≤ (readLine bytes pos).2 ∧ (readLine bytes pos).2 ≤ bytes.length := by
  have hlength : (bytes.drop pos).length = bytes.length - pos := List.length_drop
  have htake : ((bytes.drop pos).takeWhile (· ≠ 0x0A)).length ≤ (bytes.drop pos).length :=
    (List.takeWhile_sublist _).length_le
  rw [readLine]
  split
  · exact ⟨le_max_left _ _, max_le h le_rfl⟩
  · dsimp only
    omega

/-- No opcode moves the cursor back. -/
theorem moves_dispatch (p : Parser) (op : UInt8) (h : p.pos ≤ bytes.length) :
    Moves p.pos (dispatch bytes p op) := by
  have hline := readLine_le h
  have hname := readLine_le hline.2
  have hglobal : Moves p.pos (pushGlobal bytes p) :=
    moves_bind fun _ _ => moves_pure (hline.1.trans hname.1)
  have hskip : Moves p.pos (skip bytes p.pos 1 "PROTO argument" >>= fun pos => pure (p.at pos)) := by
    refine moves_bind fun pos hpos => moves_pure ?_
    obtain ⟨-, -, hpos⟩ := Checked.result_bind_eq_ok hpos
    exact Except.ok.inj hpos ▸ Nat.le_add_right _ _
  have hput : ∀ r : Nat × Nat, p.pos ≤ r.2 → Moves p.pos (memoPut (p.at r.2) r.1) :=
    fun r hr p' hp' => hr.trans (moves_memoPut (p.at r.2) r.1 p' hp')
  have hget : ∀ r : Nat × Nat, p.pos ≤ r.2 → Moves p.pos (memoGet (p.at r.2) r.1) :=
    fun r hr p' hp' => hr.trans (moves_memoGet (p.at r.2) r.1 p' hp')
  have hlong : ∀ (what : String) (r : Nat × Nat), p.pos ≤ r.2 →
      Moves p.pos (readLongAtCursor bytes r.2 r.1 what >>= fun value =>
        pure ((p.at value.2).push (.int value.1))) := by
    intro what r hr
    exact moves_bind fun value hvalue => moves_pure (hr.trans (readLongAtCursor_le hvalue))
  have htext : ∀ r : Nat × Nat, p.pos ≤ r.2 →
      Moves p.pos (readSizedString bytes r.2 r.1 >>= fun text =>
        pure ((p.at text.2).push (.string text.1))) := by
    intro r hr
    exact moves_bind fun text ht => moves_pure (hr.trans (readSizedString_le ht))
  rw [dispatch]
  refine moves_ite hskip (moves_ite (moves_pure le_rfl) (moves_ite (moves_pure le_rfl) ?_))
  refine moves_ite (moves_read (fun _ => read_le) hput) ?_
  refine moves_ite (moves_read (fun _ => read_le) hput) ?_
  refine moves_ite (moves_read (fun _ => read_le) hget) ?_
  refine moves_ite (moves_read (fun _ => read_le) hget) ?_
  refine moves_ite (moves_read (fun _ => read_le) htext) ?_
  refine moves_ite hglobal ?_
  refine moves_ite (moves_read (fun _ => read_le) fun _ hr => moves_pure hr) ?_
  refine moves_ite (moves_read (fun _ => read_le) fun _ hr => moves_pure hr) ?_
  refine moves_ite (moves_read (fun _ => read_le) fun _ hr => moves_pure hr) ?_
  refine moves_ite (moves_read (fun _ => read_le) (hlong _)) ?_
  refine moves_ite (moves_read (fun _ => read_le) (hlong _)) ?_
  refine moves_ite (moves_makeTupleFromMark p) (moves_ite (moves_pure le_rfl) ?_)
  refine moves_ite (moves_makeTupleN p 1) (moves_ite (moves_makeTupleN p 2) ?_)
  refine moves_ite (moves_makeTupleN p 3) (moves_ite (moves_pure le_rfl) ?_)
  refine moves_ite (moves_pure le_rfl) (moves_ite (moves_makePersistentId p) ?_)
  refine moves_ite (moves_reduce p) (moves_ite (moves_setitem p) ?_)
  refine moves_ite (moves_setitems p) (moves_ite (moves_build p) ?_)
  exact moves_ite (moves_pure le_rfl) (moves_error _ _)

/-- More fuel than there are bytes changes nothing. -/
theorem parseLoop_fuel {fuel : Nat} {p : Parser} (h : bytes.length ≤ p.pos + fuel) (k : Nat) :
    parseLoop bytes (fuel + k) p = parseLoop bytes fuel p := by
  induction fuel generalizing p with
  | zero =>
      have hnone : bytes[p.pos]? = none := List.getElem?_eq_none h
      cases k with
      | zero => rfl
      | succ k =>
          rw [Nat.zero_add, parseLoop, parseLoop, hnone]
  | succ fuel ih =>
      rw [Nat.add_right_comm, parseLoop, parseLoop]
      cases hop : bytes[p.pos]? with
      | none => rfl
      | some op =>
          have hlt : p.pos < bytes.length := (List.getElem?_eq_some_iff.mp hop).1
          refine Checked.bind_congr fun p' hp' => ?_
          have hle := moves_dispatch (p.at (p.pos + 1)) op hlt p' hp'
          have hpos : p.pos + 1 ≤ p'.pos := hle
          rw [ih (by omega)]

end Fuel

end Pickle
end Pth
end RwkvLightning
