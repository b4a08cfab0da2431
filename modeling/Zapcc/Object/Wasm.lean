import Zapcc.Support.LEB128

/-!
# Wasm objects

`WasmObjectWriter` writes a section with a size that is patched when the section ends, and
`WasmObjectFile` reads the sections back and parses them. A pointer of the reader is the list of
the bytes from it on. The sections of a file are read back as they were written, whatever parses
them, and the type section is read as the signatures of the function types.
-/

namespace Zapcc.Wasm

open LEB128 List

/-! ## The writer -/

abbrev Bytes := List (BitVec 8)

def WASM_SEC_CUSTOM : Nat := 0

def WASM_SEC_TYPE : Nat := 1

def WASM_TYPE_FUNC : Int := -0x20

def WASM_TYPE_NORESULT : Int := -0x40

inductive ValType where
  | I32
  | I64
  | F32
  | F64
  deriving DecidableEq

/-- The values of the enumerators. -/
def ValType.toInt : ValType → Int
  | I32 => -0x01
  | I64 => -0x02
  | F32 => -0x03
  | F64 => -0x04

structure WasmFunctionType where
  Returns : List ValType
  Params : List ValType
  deriving DecidableEq

/-- Where the size of a section is, and where its contents start. -/
structure SectionBookkeeping where
  SizeOffset : Nat
  ContentsOffset : Nat

def writeUnsigned (n : Nat) : Bytes := encodeULEB128 (BitVec.ofNat 64 n) 0

def writeSigned (i : Int) : Bytes := encodeSLEB128 (BitVec.ofInt 64 i) 0

def writeString (Str : Bytes) : Bytes := writeUnsigned Str.length ++ Str

def writeValueType (Ty : ValType) : Bytes := writeSigned Ty.toInt

/-- Write over the bytes at an offset. -/
def pwrite (OS Buffer : Bytes) (Offset : Nat) : Bytes :=
  OS.take Offset ++ Buffer ++ OS.drop (Offset + Buffer.length)

/-- Start a section behind the stream. Only custom sections have names. -/
def startSection (OS : Bytes) (SectionId : Nat) (Name : Option Bytes) :
    Option (SectionBookkeeping × Bytes) :=
  if Name.isSome ≠ decide (SectionId = WASM_SEC_CUSTOM) then none
  else
    let OS := OS ++ writeUnsigned SectionId
    let SizeOffset := OS.length
    let OS := OS ++ writeUnsigned (2 ^ 32 - 1)
    some (⟨SizeOffset, OS.length⟩, OS ++ (Name.map writeString).getD [])

/-- End a section: its size is written over the place that was left for it. -/
def endSection (OS : Bytes) (Section : SectionBookkeeping) : Option Bytes :=
  let Size := OS.length - Section.ContentsOffset
  if 2 ^ 32 ≤ Size then none
  else
    let Buffer := encodeULEB128 (BitVec.ofNat 64 Size) 5
    if Buffer.length ≠ 5 then none else some (pwrite OS Buffer Section.SizeOffset)

/-- What every function that writes a section does around its contents. -/
def writeSection (SectionId : Nat) (Name : Option Bytes) (contents OS : Bytes) : Option Bytes := do
  let (Section, OS) ← startSection OS SectionId Name
  endSection (OS ++ contents) Section

def writeFunctionType (FuncTy : WasmFunctionType) : Bytes :=
  writeSigned WASM_TYPE_FUNC ++
    (writeUnsigned FuncTy.Params.length ++ FuncTy.Params.flatMap writeValueType ++
      (writeUnsigned FuncTy.Returns.length ++ FuncTy.Returns.flatMap writeValueType))

/-- The contents of the type section. -/
def typeContents (FunctionTypes : List WasmFunctionType) : Bytes :=
  writeUnsigned FunctionTypes.length ++ FunctionTypes.flatMap writeFunctionType

def writeTypeSection (FunctionTypes : List WasmFunctionType) (OS : Bytes) : Option Bytes :=
  if FunctionTypes = [] then some OS
  else writeSection WASM_SEC_TYPE none (typeContents FunctionTypes) OS

/-- The magic string and the version. -/
def header : Bytes := [0x00#8, 0x61#8, 0x73#8, 0x6d#8] ++ [0x01#8, 0x00#8, 0x00#8, 0x00#8]

/-- A section as it is given to the writer. -/
structure Written where
  SectionId : Nat
  Name : Option Bytes
  contents : Bytes

/-- A file of some sections. -/
def writeObject (sections : List Written) : Option Bytes :=
  sections.foldlM (fun OS s => writeSection s.SectionId s.Name s.contents OS) header

/-! ## The reader -/

/-- Why nothing is read: an assertion fails or the code reads outside of the buffer, or it returns
an error. -/
inductive Failure where
  | undefined
  | error (message : String)
  deriving DecidableEq

/-- What a decoder returns at a pointer, and the pointer behind it. A value that is too big is
read as zero. -/
def advance (Ptr : Bytes) : Option Decoded → Except Failure (BitVec 64 × Bytes)
  | some (.value v n) => .ok (v, Ptr.drop n)
  | some (.error _ n) => if n < Ptr.length then .ok (0#64, Ptr.drop n) else .error .undefined
  | none => .error .undefined

def readULEB128 (Ptr : Bytes) : Except Failure (BitVec 64 × Bytes) :=
  advance Ptr (decodeULEB128 Ptr)

def readLEB128 (Ptr : Bytes) : Except Failure (BitVec 64 × Bytes) :=
  advance Ptr (decodeSLEB128 Ptr)

def readVarint7 (Ptr : Bytes) : Except Failure (Int × Bytes) := do
  let (result, Ptr) ← readLEB128 Ptr
  if result.toInt ≤ 127 ∧ -128 ≤ result.toInt then .ok (result.toInt, Ptr) else .error .undefined

def readVaruint7 (Ptr : Bytes) : Except Failure (Nat × Bytes) := do
  let (result, Ptr) ← readULEB128 Ptr
  if result.toNat ≤ 128 then .ok (result.toNat, Ptr) else .error .undefined

def readVaruint32 (Ptr : Bytes) : Except Failure (Nat × Bytes) := do
  let (result, Ptr) ← readULEB128 Ptr
  if result.toNat < 2 ^ 32 then .ok (result.toNat, Ptr) else .error .undefined

structure WasmSection where
  Offset : Nat
  Type_ : Nat
  Content : Bytes
  deriving DecidableEq

/-- Read a section of a buffer of some size. -/
def readSection (size : Nat) (Ptr : Bytes) : Except Failure (WasmSection × Bytes) := do
  let Offset := size - Ptr.length
  let (Type_, Ptr) ← readVaruint7 Ptr
  let (Size, Ptr) ← readVaruint32 Ptr
  if Size = 0 then .error (.error "Zero length section")
  else if Ptr.length < Size then .error (.error "Section too large")
  else .ok (⟨Offset, Type_, Ptr.take Size⟩, Ptr.drop Size)

/-- The loop of the constructor. The number bounds the sections. -/
def readSections {σ : Type} (parseSection : σ → WasmSection → Except Failure σ) (size : Nat) :
    Nat → Bytes → σ → Except Failure σ
  | 0, Ptr, s => if Ptr = [] then .ok s else .error .undefined
  | n + 1, Ptr, s =>
    if Ptr = [] then .ok s
    else do
      let (Sec, Ptr) ← readSection size Ptr
      let s ← parseSection s Sec
      readSections parseSection size n Ptr s

/-- The constructor of an object file, where `parseSection` parses a section into an object. -/
def readObject {σ : Type} (parseSection : σ → WasmSection → Except Failure σ) (s : σ)
    (data : Bytes) : Except Failure σ :=
  if data.take 4 ≠ header.take 4 then .error (.error "Bad magic number")
  else if data.length < 8 then .error (.error "Missing version number")
  else if (data.drop 4).take 4 ≠ header.drop 4 then .error (.error "Bad version number")
  else readSections parseSection data.length data.length (data.drop 8) s

structure WasmSignature where
  ParamTypes : List Int
  ReturnType : Int
  deriving DecidableEq

/-- Types, as many as a count says. -/
def readTypes : Nat → Bytes → Except Failure (List Int × Bytes)
  | 0, Ptr => .ok ([], Ptr)
  | n + 1, Ptr => do
    let (Type_, Ptr) ← readVarint7 Ptr
    let (Types, Ptr) ← readTypes n Ptr
    .ok (Type_ :: Types, Ptr)

/-- The body of the loop of `parseTypeSection`. -/
def parseSignature (Ptr : Bytes) : Except Failure (WasmSignature × Bytes) := do
  let (Form, Ptr) ← readVarint7 Ptr
  if Form ≠ WASM_TYPE_FUNC then .error (.error "Invalid signature type")
  else
    let (ParamCount, Ptr) ← readVaruint32 Ptr
    let (ParamTypes, Ptr) ← readTypes ParamCount Ptr
    let (ReturnCount, Ptr) ← readVaruint32 Ptr
    if ReturnCount = 0 then .ok (⟨ParamTypes, WASM_TYPE_NORESULT⟩, Ptr)
    else if ReturnCount ≠ 1 then .error (.error "Multiple return types not supported")
    else
      let (ReturnType, Ptr) ← readVarint7 Ptr
      .ok (⟨ParamTypes, ReturnType⟩, Ptr)

def parseSignatures : Nat → Bytes → Except Failure (List WasmSignature × Bytes)
  | 0, Ptr => .ok ([], Ptr)
  | n + 1, Ptr => do
    let (Sig, Ptr) ← parseSignature Ptr
    let (Sigs, Ptr) ← parseSignatures n Ptr
    .ok (Sig :: Sigs, Ptr)

/-- The signatures of a type section. -/
def parseTypeSection (Content : Bytes) : Except Failure (List WasmSignature) := do
  let (Count, Ptr) ← readVaruint32 Content
  let (Signatures, Ptr) ← parseSignatures Count Ptr
  if Ptr ≠ [] then .error (.error "Type section ended prematurely") else .ok Signatures

/-! ## Numbers -/

theorem decodeULEB128Loop_append {bytes : Bytes} (h : Terminated bytes) (n : Nat)
    (value : BitVec 64) (shift : Nat) (rest : Bytes) :
    decodeULEB128Loop n value shift (bytes ++ rest) = decodeULEB128Loop n value shift bytes := by
  induction h generalizing n value shift with
  | last hbyte =>
    simp only [cons_append, decodeULEB128Loop_cons, if_neg (Nat.not_le.mpr hbyte)]
  | next hbyte _ ih => simp only [cons_append, decodeULEB128Loop_cons, ih]

theorem decodeSLEB128Loop_append {bytes : Bytes} (h : Terminated bytes) (n : Nat)
    (value : BitVec 64) (shift : Nat) (rest : Bytes) :
    decodeSLEB128Loop n value shift (bytes ++ rest) = decodeSLEB128Loop n value shift bytes := by
  induction h generalizing n value shift with
  | last hbyte => simp only [cons_append, decodeSLEB128Loop, if_neg (Nat.not_le.mpr hbyte)]
  | next hbyte _ ih => simp only [cons_append, decodeSLEB128Loop, ih]

variable {rest : Bytes}

theorem readULEB128_encode (v : BitVec 64) {padTo : Nat} (h : padTo ≤ 10) :
    readULEB128 (encodeULEB128 v padTo ++ rest) = .ok (v, rest) := by
  have hdecode : decodeULEB128Loop 0 0#64 0 (encodeULEB128 v padTo) = _ :=
    (roundTripsULEB128_iff v padTo).mpr h
  rw [readULEB128, decodeULEB128, decodeULEB128Loop_append (encodeULEB128_spec v padTo).1, hdecode,
    advance, drop_left]

theorem readVaruint32_encode {n padTo : Nat} (hn : n < 2 ^ 32) (h : padTo ≤ 10) :
    readVaruint32 (encodeULEB128 (BitVec.ofNat 64 n) padTo ++ rest) = .ok (n, rest) := by
  have hn' : (BitVec.ofNat 64 n).toNat = n := Nat.mod_eq_of_lt (by omega)
  simp only [readVaruint32, readULEB128_encode _ h, bind, Except.bind, hn', if_pos hn]

theorem readVaruint7_write {n : Nat} (hn : n ≤ 128) :
    readVaruint7 (writeUnsigned n ++ rest) = .ok (n, rest) := by
  have hn' : (BitVec.ofNat 64 n).toNat = n := Nat.mod_eq_of_lt (by omega)
  simp only [readVaruint7, writeUnsigned, readULEB128_encode _ (Nat.zero_le 10), bind, Except.bind,
    hn', if_pos hn]

theorem readVarint7_write {i : Int} (hlow : -128 ≤ i) (hhigh : i ≤ 127) :
    readVarint7 (writeSigned i ++ rest) = .ok (i, rest) := by
  have hi : (BitVec.ofInt 64 i).toInt = i := by
    rw [BitVec.toInt_ofInt]
    exact Int.bmod_eq_of_le (by omega) (by omega)
  have hdecode : decodeSLEB128Loop 0 0#64 0 (encodeSLEB128 (BitVec.ofInt 64 i) 0) = _ :=
    (roundTripsSLEB128_iff (BitVec.ofInt 64 i) 0).mpr ⟨by omega, fun _ => by omega⟩
  have hread : readLEB128 (writeSigned i ++ rest) = .ok (BitVec.ofInt 64 i, rest) := by
    rw [writeSigned, readLEB128, decodeSLEB128,
      decodeSLEB128Loop_append (encodeSLEB128_spec (BitVec.ofInt 64 i) 0).1, hdecode, advance,
      drop_left]
  simp only [readVarint7, hread, bind, Except.bind, hi, if_pos (And.intro hhigh hlow)]

theorem length_size {n : Nat} (hn : n < 2 ^ 32) :
    (encodeULEB128 (BitVec.ofNat 64 n) 5).length = 5 := by
  have hn' : (BitVec.ofNat 64 n).toNat = n := Nat.mod_eq_of_lt (by omega)
  have hloop := encodeULEB128Loop_length_le 5 (BitVec.ofNat 64 n) 0 4 (by omega)
  rw [(encodeULEB128_spec (BitVec.ofNat 64 n) 5).2.2]
  omega

/-! ## Sections -/

theorem writeUnsigned_ne_nil (n : Nat) : writeUnsigned n ≠ [] := (encodeULEB128_spec _ 0).1.ne_nil

namespace Written

/-- The contents of a section, with its name. -/
def payload (s : Written) : Bytes := (s.Name.map writeString).getD [] ++ s.contents

def bytes (s : Written) : Bytes :=
  writeUnsigned s.SectionId ++ (encodeULEB128 (BitVec.ofNat 64 s.payload.length) 5 ++ s.payload)

/-- A section that can be written and read. -/
structure Valid (s : Written) : Prop where
  named : s.Name.isSome = decide (s.SectionId = WASM_SEC_CUSTOM)
  id_le : s.SectionId ≤ 128
  ne_nil : s.payload ≠ []
  size_lt : s.payload.length < 2 ^ 32

/-- The sections of a file from an offset on. -/
def laidOut : Nat → List Written → List WasmSection
  | _, [] => []
  | Offset, s :: ss => ⟨Offset, s.SectionId, s.payload⟩ :: laidOut (Offset + s.bytes.length) ss

variable {s : Written}

theorem bytes_ne_nil : s.bytes ≠ [] :=
  append_ne_nil_of_left_ne_nil (writeUnsigned_ne_nil s.SectionId) _

theorem Valid.write (h : s.Valid) (OS : Bytes) :
    writeSection s.SectionId s.Name s.contents OS = some (OS ++ s.bytes) := by
  have hplace : (writeUnsigned (2 ^ 32 - 1)).length = 5 := by
    simp [writeUnsigned, encodeULEB128, encodeULEB128Loop]
  have hbuffer := length_size h.size_lt
  have hsize : (OS ++ writeUnsigned s.SectionId ++ writeUnsigned (2 ^ 32 - 1) ++
      (s.Name.map writeString).getD [] ++ s.contents).length -
        (OS ++ writeUnsigned s.SectionId ++ writeUnsigned (2 ^ 32 - 1)).length =
      s.payload.length := by
    rw [append_assoc _ _ s.contents, length_append, Nat.add_sub_cancel_left]
    rfl
  rw [writeSection, startSection, if_neg (fun hne => hne h.named)]
  simp only [bind, Option.bind, endSection, hsize, if_neg (Nat.not_le.mpr h.size_lt), hbuffer,
    ne_eq, not_true_eq_false, if_false, pwrite, bytes]
  rw [append_assoc _ _ s.contents, drop_left' (by rw [length_append, hplace]),
    append_assoc (OS ++ writeUnsigned s.SectionId), take_left]
  simp only [append_assoc, payload]

theorem Valid.read (h : s.Valid) (size : Nat) :
    readSection size (s.bytes ++ rest) =
      .ok (⟨size - (s.bytes ++ rest).length, s.SectionId, s.payload⟩, rest) := by
  have hlength : s.payload.length ≠ 0 := fun hzero => h.ne_nil (length_eq_zero_iff.mp hzero)
  have hshort : ¬ (s.payload ++ rest).length < s.payload.length := by
    rw [length_append]
    omega
  simp only [readSection, bytes, append_assoc, readVaruint7_write h.id_le,
    readVaruint32_encode h.size_lt (show 5 ≤ 10 by omega), bind, Except.bind, if_neg hlength,
    if_neg hshort, take_left, drop_left]

end Written

theorem length_le_flatMap {α : Type} {l : List α} {f : α → Bytes} (h : ∀ x ∈ l, f x ≠ []) :
    l.length ≤ (l.flatMap f).length := by
  induction l with
  | nil => exact Nat.zero_le _
  | cons x l ih =>
    have hx := length_pos_of_ne_nil (h x mem_cons_self)
    have hl := ih fun y hy => h y (mem_cons_of_mem x hy)
    rw [flatMap_cons, length_append, length_cons]
    omega

variable {σ : Type} (parseSection : σ → WasmSection → Except Failure σ)

theorem writeObject_eq {sections : List Written} (h : ∀ s ∈ sections, s.Valid) (OS : Bytes) :
    sections.foldlM (fun OS s => writeSection s.SectionId s.Name s.contents OS) OS =
      some (OS ++ sections.flatMap Written.bytes) := by
  induction sections generalizing OS with
  | nil => simp
  | cons s sections ih =>
    rw [foldlM_cons, (h s mem_cons_self).write]
    exact (ih (fun t ht => h t (mem_cons_of_mem s ht)) _).trans (by simp)

theorem readSections_eq {sections : List Written} (h : ∀ s ∈ sections, s.Valid) (n Offset : Nat)
    (hn : sections.length ≤ n) (s : σ) :
    readSections parseSection (Offset + (sections.flatMap Written.bytes).length) n
        (sections.flatMap Written.bytes) s =
      (Written.laidOut Offset sections).foldlM parseSection s := by
  induction sections generalizing n Offset s with
  | nil => cases n <;> rfl
  | cons t sections ih =>
    obtain ⟨n, rfl⟩ : ∃ m, n = m + 1 := ⟨n - 1, by rw [length_cons] at hn; omega⟩
    have hnext := ih (fun u hu => h u (mem_cons_of_mem t hu)) n (Offset + t.bytes.length)
      (Nat.le_of_succ_le_succ hn)
    rw [flatMap_cons, length_append, ← Nat.add_assoc, Written.laidOut, foldlM_cons]
    rw [readSections, if_neg (append_ne_nil_of_left_ne_nil t.bytes_ne_nil _),
      (h t mem_cons_self).read]
    simp only [bind, Except.bind, length_append, Nat.add_assoc, Nat.add_sub_cancel]
    cases parseSection s ⟨Offset, t.SectionId, t.payload⟩ with
    | error e => rfl
    | ok s' => simpa only [Nat.add_assoc] using hnext s'

/-- The reader gives the sections of a file to its parser as they were written, in their order and
with their offsets. -/
theorem readObject_writeObject (s : σ) (sections : List Written) (h : ∀ s ∈ sections, s.Valid) :
    ∃ file, writeObject sections = some file ∧
      readObject parseSection s file = (Written.laidOut 8 sections).foldlM parseSection s := by
  refine ⟨_, writeObject_eq h header, ?_⟩
  have hlength := length_le_flatMap fun (t : Written) (_ : t ∈ sections) => t.bytes_ne_nil
  rw [readObject, if_neg (by simp [header]), if_neg (by simp [header]), if_neg (by simp [header]),
    length_append]
  exact readSections_eq parseSection h _ 8 (Nat.le_add_left_of_le hlength) s

theorem readObject_writeObject_types :
    ∃ file, writeObject [⟨WASM_SEC_TYPE, none, [0#8]⟩, ⟨3, none, [0#8, 0#8]⟩] = some file ∧
      readObject (fun Sections Sec => .ok (Sections ++ [Sec])) [] file =
        .ok [⟨8, WASM_SEC_TYPE, [0#8]⟩, ⟨15, 3, [0#8, 0#8]⟩] := by
  obtain ⟨file, hwrite, hread⟩ := readObject_writeObject
    (fun Sections Sec => .ok (Sections ++ [Sec])) []
    [⟨WASM_SEC_TYPE, none, [0#8]⟩, ⟨3, none, [0#8, 0#8]⟩] (by
      rintro s (_ | ⟨_, _ | ⟨_, ⟨⟩⟩⟩) <;> exact ⟨rfl, by decide, by decide, by decide⟩)
  refine ⟨file, hwrite, hread.trans ?_⟩
  decide +kernel

/-! ## Function types -/

/-- The signature that is read for a function type. -/
def WasmFunctionType.signature (FuncTy : WasmFunctionType) : Except Failure WasmSignature :=
  match FuncTy.Returns with
  | [] => .ok ⟨FuncTy.Params.map ValType.toInt, WASM_TYPE_NORESULT⟩
  | [Ty] => .ok ⟨FuncTy.Params.map ValType.toInt, Ty.toInt⟩
  | _ :: _ :: _ => .error (.error "Multiple return types not supported")

theorem readVarint7_type (Ty : ValType) :
    readVarint7 (writeValueType Ty ++ rest) = .ok (Ty.toInt, rest) := by
  cases Ty <;> exact readVarint7_write (by decide) (by decide)

theorem readTypes_write (Tys : List ValType) :
    readTypes Tys.length (Tys.flatMap writeValueType ++ rest) =
      .ok (Tys.map ValType.toInt, rest) := by
  induction Tys with
  | nil => rfl
  | cons Ty Tys ih =>
    simp only [length_cons, flatMap_cons, append_assoc, readTypes, readVarint7_type, ih, bind,
      Except.bind, map_cons]

theorem length_types_le (Tys : List ValType) : Tys.length ≤ (Tys.flatMap writeValueType).length :=
  length_le_flatMap fun Ty _ => (encodeSLEB128_spec (BitVec.ofInt 64 Ty.toInt) 0).1.ne_nil

theorem parseSignature_write (FuncTy : WasmFunctionType)
    (h : (writeFunctionType FuncTy).length < 2 ^ 32) :
    parseSignature (writeFunctionType FuncTy ++ rest) = FuncTy.signature.map (·, rest) := by
  have hparams := length_types_le FuncTy.Params
  have hreturns := length_types_le FuncTy.Returns
  simp only [writeFunctionType, length_append] at h
  simp only [parseSignature, writeFunctionType, append_assoc]
  rw [readVarint7_write (by decide) (by decide)]
  simp only [bind, Except.bind, ne_eq, not_true_eq_false, if_false]
  rw [writeUnsigned, readVaruint32_encode (by omega) (by omega)]
  simp only [readTypes_write]
  rw [writeUnsigned, readVaruint32_encode (by omega) (by omega)]
  match hr : FuncTy.Returns with
  | [] => simp [WasmFunctionType.signature, hr, Except.map]
  | [Ty] => simp [WasmFunctionType.signature, hr, readVarint7_type, Except.map]
  | _ :: _ :: _ => simp [WasmFunctionType.signature, hr, Except.map]

theorem parseSignatures_write (FunctionTypes : List WasmFunctionType)
    (h : (FunctionTypes.flatMap writeFunctionType).length < 2 ^ 32) :
    parseSignatures FunctionTypes.length (FunctionTypes.flatMap writeFunctionType ++ rest) =
      (FunctionTypes.mapM WasmFunctionType.signature).map (·, rest) := by
  induction FunctionTypes with
  | nil => rfl
  | cons FuncTy FunctionTypes ih =>
    rw [flatMap_cons, length_append] at h
    rw [length_cons, flatMap_cons, append_assoc, parseSignatures,
      parseSignature_write FuncTy (by omega), mapM_cons]
    have hrest := ih (by omega)
    cases FuncTy.signature with
    | error e => rfl
    | ok Sig =>
      simp only [Except.map, bind, Except.bind, hrest]
      cases FunctionTypes.mapM WasmFunctionType.signature <;> rfl

theorem writeFunctionType_ne_nil (FuncTy : WasmFunctionType) : writeFunctionType FuncTy ≠ [] :=
  append_ne_nil_of_left_ne_nil (encodeSLEB128_spec _ 0).1.ne_nil _

theorem parseTypeSection_contents {FunctionTypes : List WasmFunctionType}
    (h : (typeContents FunctionTypes).length < 2 ^ 32) :
    parseTypeSection (typeContents FunctionTypes) =
      FunctionTypes.mapM WasmFunctionType.signature := by
  have hcount := length_le_flatMap fun FuncTy (_ : FuncTy ∈ FunctionTypes) =>
    writeFunctionType_ne_nil FuncTy
  rw [typeContents, length_append] at h
  have hparse := @parseSignatures_write [] FunctionTypes (by omega)
  rw [append_nil] at hparse
  rw [parseTypeSection, typeContents, writeUnsigned, readVaruint32_encode (by omega) (by omega)]
  simp only [bind, Except.bind, hparse]
  cases FunctionTypes.mapM WasmFunctionType.signature <;> rfl

/-- The type section that is written is read as the signatures of the function types, and with an
error if a function returns more than one value. -/
theorem typeSection_roundTrip (FunctionTypes : List WasmFunctionType) (hne : FunctionTypes ≠ [])
    (h : (typeContents FunctionTypes).length < 2 ^ 32) :
    ∃ file, writeTypeSection FunctionTypes header = some file ∧
      readSection file.length (file.drop 8) =
        .ok (⟨8, WASM_SEC_TYPE, typeContents FunctionTypes⟩, []) ∧
      parseTypeSection (typeContents FunctionTypes) =
        FunctionTypes.mapM WasmFunctionType.signature := by
  let s : Written := ⟨WASM_SEC_TYPE, none, typeContents FunctionTypes⟩
  have hs : s.Valid := ⟨rfl, by change 1 ≤ 128; omega,
    append_ne_nil_of_left_ne_nil (writeUnsigned_ne_nil FunctionTypes.length) _, h⟩
  refine ⟨header ++ s.bytes, ?_, ?_, parseTypeSection_contents h⟩
  · rw [writeTypeSection, if_neg hne]
    exact hs.write header
  · have hread := @Written.Valid.read [] s hs (header ++ s.bytes).length
    rw [append_nil, length_append, Nat.add_sub_cancel] at hread
    rw [length_append]
    exact hread

theorem typeSection_roundTrip_add :
    ∃ file, writeTypeSection [⟨[.I32], [.I32, .I64]⟩] header = some file ∧
      readSection file.length (file.drop 8) =
        .ok (⟨8, WASM_SEC_TYPE, typeContents [⟨[.I32], [.I32, .I64]⟩]⟩, []) ∧
      parseTypeSection (typeContents [⟨[.I32], [.I32, .I64]⟩]) =
        [(⟨[.I32], [.I32, .I64]⟩ : WasmFunctionType)].mapM WasmFunctionType.signature :=
  typeSection_roundTrip _ (by decide) (by decide +kernel)

end Zapcc.Wasm
