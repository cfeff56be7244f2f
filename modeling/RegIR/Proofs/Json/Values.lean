import RegIR.Proofs.Json.Fields

/-!
# IR values are read back from their trees

For every kind of IR value, what is written for it is plain JSON and is read as that value. This
holds without conditions for register names, operands and calls, and for types, instructions,
blocks, functions and modules whenever the types inside are read back (`Json.Faithful`).

A value that has been read is read back from its own tree however it was spelled, because its
own tree is never deeper: a structure takes as many containers as an object as it does as an
array, and the name of a type alone takes none.

## Main results

* `Ty.ofJson?_toJson`, `Ty.ofJson?_again`: types, by induction on the type and on the levels.
* `Instruction.ofJson?_without`: what an instruction does not have may be left out.
* `Instruction.absent_of_missing`, `Module.lowered_of_missing`: what is left out is absent.
* `Instruction.faithful`, `Block.faithful`, `Func.faithful`, `Module.faithful`.
-/

namespace RegIR

open Json

/-! ### Register names, operands, opcodes -/

theorem RegName.plain_toJson (r : RegName) : r.toJson.Plain := by
  cases r <;> simp [toJson, tagged, ofWord32]

@[simp] theorem RegName.ofJson?_toJson (r : RegName) : ofJson? r.toJson = some r := by
  cases r with
  | num n =>
      -- The data stays a variable while the tag is matched, so that no range check is evaluated.
      have hread : ∀ j, ofJson? (tagged "Num" j) = j.word32?.map num := fun _ => rfl
      rw [toJson, hread, word32?_ofWord32, Option.map_some]
  | named s => rfl

theorem StringConst.plain_toJson (s : StringConst) : s.toJson.Plain := by
  simp [toJson]

@[simp] theorem StringConst.ofJson?_toJson (s : StringConst) : ofJson? s.toJson = some s := by
  rw [ofJson?, toJson, fields?_object (by simp)]
  simp [List.lookup_cons]

theorem Operand.plain_toJson (op : Operand) : op.toJson.Plain := by
  cases op <;> simp [toJson, tagged, ofWord32, RegName.plain_toJson, StringConst.plain_toJson]

@[simp] theorem Operand.ofJson?_toJson (op : Operand) : ofJson? op.toJson = some op := by
  cases op with
  | imm value =>
      have hread : ∀ j, ofJson? (tagged "Imm" j) = j.signed64?.map imm := fun _ => rfl
      rw [toJson, hread, signed64?_integer, Option.map_some]
  | reg name =>
      have hread : ∀ j, ofJson? (tagged "Reg" j) = (RegName.ofJson? j).map reg := fun _ => rfl
      rw [toJson, hread, RegName.ofJson?_toJson, Option.map_some]
  | label name => rfl
  | string constant =>
      have hread : ∀ j, ofJson? (tagged "StringPtr" j) = (StringConst.ofJson? j).map string :=
        fun _ => rfl
      rw [toJson, hread, StringConst.ofJson?_toJson, Option.map_some]
  | slot name offset =>
      have hread : ∀ a b, ofJson? (tagged "Mem" (object [("name", a), ("offset", b)])) =
          (do return slot (← RegName.ofJson? a) (← b.word32?)) := fun _ _ => rfl
      rw [toJson, hread, RegName.ofJson?_toJson, word32?_ofWord32]
      rfl
  | general index =>
      have hread : ∀ j, ofJson? (tagged "HReg" j) = j.word32?.map general := fun _ => rfl
      rw [toJson, hread, word32?_ofWord32, Option.map_some]
  | argument index =>
      have hread : ∀ j, ofJson? (tagged "AReg" j) = j.word32?.map argument := fun _ => rfl
      rw [toJson, hread, word32?_ofWord32, Option.map_some]
  | pointer index =>
      have hread : ∀ j, ofJson? (tagged "PReg" j) = j.word32?.map pointer := fun _ => rfl
      rw [toJson, hread, word32?_ofWord32, Option.map_some]

@[simp] theorem Opcode.ofJson?_toJson (op : Opcode) : ofJson? op.toJson = some op := by
  have hfind : ∀ op ∈ all, all.find? (·.jsonName == op.jsonName) = some op := by
    decide
  rw [ofJson?, toJson, unit?_string]
  exact hfind op (mem_all op)

@[simp] theorem Linkage.ofJson?_toJson (l : Linkage) : ofJson? l.toJson = some l := by
  cases l <;> rfl

/-! ### Types -/

namespace Ty

theorem listToJson_eq_map (ts : List Ty) : listToJson ts = ts.map toJson := by
  induction ts with
  | nil => rfl
  | cons t ts ih => rw [listToJson, ih, List.map_cons]

/-- A type that is written as its name is read as that type. -/
theorem ofJson?_string (levels : Nat) (name : String) :
    ofJson? levels (string name) = ofName? name := by
  rw [string, ofJson?]

theorem ofJson?_pointer (levels : Nat) (j : Json) :
    ofJson? (levels + 1) (tagged "Pointer" j) = (ofJson? levels j).map pointer := by
  simp only [tagged, object, List.map_cons, List.map_nil]
  rw [ofJson?]

theorem ofJson?_struct (levels : Nat) (a b : Json) :
    ofJson? (levels + 3) (tagged "Struct" (object [("name", a), ("elements", b)])) =
      (do return struct (← a.string?) (← (← b.array?).mapM (ofJson? levels))) := by
  simp only [tagged, object, List.map_cons, List.map_nil]
  rw [ofJson?]
  rfl

mutual

theorem plain_toJson (t : Ty) : t.toJson.Plain := by
  cases t with
  | pointer base => simp [toJson, tagged, plain_toJson base]
  | struct name elements => simpa [toJson, tagged] using plain_listToJson elements
  | _ => exact plain_string _

theorem plain_listToJson (ts : List Ty) : ∀ j ∈ listToJson ts, j.Plain := by
  cases ts with
  | nil => simp [listToJson]
  | cons t ts =>
      rw [listToJson, List.forall_mem_cons]
      exact ⟨plain_toJson t, plain_listToJson ts⟩

end

mutual

/-- A type is read back where its tree is not too deep. -/
theorem ofJson?_toJson (t : Ty) (levels : Nat) (h : t.toJson.depth ≤ levels) :
    ofJson? levels t.toJson = some t := by
  cases t with
  | pointer base =>
      rw [toJson, depth_tagged] at h
      obtain ⟨levels, rfl⟩ : ∃ n, levels = n + 1 := ⟨levels - 1, by omega⟩
      rw [toJson, ofJson?_pointer, ofJson?_toJson base levels (by omega), Option.map_some]
  | struct name elements =>
      have hdepth : (object [("name", string name),
          ("elements", arr (listToJson elements))]).depth =
          itemsDepth (listToJson elements) + 2 := by
        simp [object, string, depth, membersDepth]
      rw [toJson, depth_tagged, hdepth] at h
      obtain ⟨levels, rfl⟩ : ∃ n, levels = n + 3 := ⟨levels - 3, by omega⟩
      rw [toJson, ofJson?_struct, string?_string, array?_arr]
      simp [mapM_listToJson elements levels (by omega)]
  | _ =>
      rw [toJson, ofJson?_string]
      rfl

theorem mapM_listToJson (ts : List Ty) (levels : Nat) (h : itemsDepth (listToJson ts) ≤ levels) :
    (listToJson ts).mapM (ofJson? levels) = some ts := by
  cases ts with
  | nil => rfl
  | cons t ts =>
      rw [listToJson, itemsDepth] at h
      rw [listToJson, List.mapM_cons, ofJson?_toJson t levels (by omega),
        mapM_listToJson ts levels (by omega)]
      rfl

end

/-- A type that is written as its name is read back, however few levels are left. -/
theorem ofJson?_of_ofName? {name : String} {t : Ty} (h : ofName? name = some t) (levels : Nat) :
    ofJson? levels t.toJson = some t := by
  have htree : t.toJson = string name := by
    unfold ofName? at h
    split at h <;> cases h <;> rfl
  rw [htree, ofJson?_string, h]

/-- A type that has been read is read back from its own tree. -/
theorem ofJson?_again {levels : Nat} {j : Json} {t : Ty} (h : ofJson? levels j = some t) :
    ofJson? levels t.toJson = some t := by
  -- The induction is on the levels and not on the type: it is the tree that was read, and any
  -- such tree has used up at least the levels that the type's own tree needs.
  induction levels using Nat.strongRecOn generalizing j t with
  | ind levels ih =>
      rw [ofJson?.eq_def] at h
      split at h
      next => exact ofJson?_of_ofName? h _
      next levels payload =>
        obtain ⟨base, hbase, rfl⟩ := Option.map_eq_some_iff.mp h
        rw [toJson, ofJson?_pointer, ih levels (by omega) hbase, Option.map_some]
      next levels payload =>
        simp only [Option.bind_eq_bind, Option.bind_eq_some_iff] at h
        obtain ⟨fields, -, h⟩ := h
        split at h
        next name elements =>
          simp only [Option.bind_eq_some_iff, Option.pure_def, Option.some.injEq] at h
          obtain ⟨name, -, items, -, ts, hts, rfl⟩ := h
          have hread : (listToJson ts).mapM (ofJson? levels) = some ts := by
            rw [listToJson_eq_map]
            refine mapM_map_write fun t ht => ?_
            obtain ⟨j, hj⟩ := exists_of_mem_mapM hts t ht
            exact ih levels (by omega) hj
          rw [toJson, ofJson?_struct, string?_string, array?_arr]
          simp [hread]
        next => cases h
      next => exact ofJson?_of_ofName? h _
      next => cases h

end Ty

/-! ### Values with parts -/

theorem Ty.faithful : Faithful Ty.toJson Ty.ofJson? where
  plain := plain_toJson
  shallow := ofJson?_toJson _ _
  again := ofJson?_again

theorem Call.plain_toJson (c : Call) : c.toJson.Plain := by
  simpa [toJson] using fun op _ => Operand.plain_toJson op

@[simp] theorem Call.ofJson?_toJson (c : Call) : ofJson? c.toJson = some c := by
  have hread : ∀ a b, ofJson? (object [("callee", a), ("args", b)]) =
      (do return ⟨← a.string?, ← (← b.array?).mapM Operand.ofJson?⟩) := fun _ _ => rfl
  have hargs : (c.args.map Operand.toJson).mapM Operand.ofJson? = some c.args :=
    mapM_map_write fun op _ => op.ofJson?_toJson
  rw [toJson, hread, string?_string, array?_arr]
  simp [hargs]

namespace Instruction

/-- The members of the object that is written for an instruction. -/
def members (i : Instruction) : List (String × Json) :=
  [("opcode", i.opcode.toJson),
   ("data_type", i.dataType.toJson),
   ("dest", ofOption Operand.toJson i.dest),
   ("src1", ofOption Operand.toJson i.src1),
   ("src2", ofOption Operand.toJson i.src2),
   ("src3", ofOption Operand.toJson i.src3),
   ("call", ofOption Call.toJson i.call)]

/-- `i.Absent key`: the key is that of an operand, or of the call, that the instruction does not
have. -/
def Absent (i : Instruction) : String → Prop
  | "dest" => i.dest = none
  | "src1" => i.src1 = none
  | "src2" => i.src2 = none
  | "src3" => i.src3 = none
  | "call" => i.call = none
  | _ => False

/-- Reading an object with distinct keys, by its fields. -/
theorem ofJson?_object {ms : List (String × Json)} (hnodup : (ms.map Prod.fst).Nodup)
    {opcode dataType : Json} (hopcode : ms.lookup "opcode" = some opcode)
    (htype : ms.lookup "data_type" = some dataType) (levels : Nat) :
    ofJson? levels (object ms) = (do
      return {
        opcode := ← Opcode.ofJson? opcode
        dataType := ← Ty.ofJson? (levels - 1) dataType
        dest := ← optional? Operand.ofJson? (ms.lookup "dest")
        src1 := ← optional? Operand.ofJson? (ms.lookup "src1")
        src2 := ← optional? Operand.ofJson? (ms.lookup "src2")
        src3 := ← optional? Operand.ofJson? (ms.lookup "src3")
        call := ← optional? Call.ofJson? (ms.lookup "call") }) := by
  rw [ofJson?, fields?_object hnodup]
  simp only [List.map_cons, List.map_nil, hopcode, htype]
  rfl

/-- An instruction is read back if its type is, and what it does not have may be left out. -/
theorem ofJson?_without {i : Instruction} {keys : List String} {levels : Nat}
    (hkeys : ∀ key ∈ keys, i.Absent key)
    (htype : Ty.ofJson? (levels - 1) i.dataType.toJson = some i.dataType) :
    ofJson? levels (i.toJson.without keys) = some i := by
  have hlookup : ∀ key, (i.members.filter (·.1 ∉ keys)).lookup key =
      if key ∈ keys then none else i.members.lookup key := lookup_filter keys i.members
  have hnodup : ((i.members.filter (·.1 ∉ keys)).map Prod.fst).Nodup := by
    refine List.Nodup.sublist (List.filter_sublist.map _) ?_
    simp [members]
  have hoperand : ∀ (key : String) (value : Option Operand),
      i.members.lookup key = some (ofOption Operand.toJson value) →
      (key ∈ keys → value = none) →
      optional? Operand.ofJson? ((i.members.filter (·.1 ∉ keys)).lookup key) = some value := by
    intro key value hvalue hleft
    rw [hlookup, hvalue]
    exact optional?_ofOption Operand.ofJson?_toJson (fun op => by cases op <;> exact nofun) hleft
  have hcall : optional? Call.ofJson? ((i.members.filter (·.1 ∉ keys)).lookup "call") =
      some i.call := by
    rw [hlookup]
    exact optional?_ofOption Call.ofJson?_toJson (fun c => nofun) (hkeys "call")
  have hopcode : (i.members.filter (·.1 ∉ keys)).lookup "opcode" = some i.opcode.toJson := by
    rw [hlookup, if_neg (hkeys "opcode")]
    rfl
  have hdata : (i.members.filter (·.1 ∉ keys)).lookup "data_type" = some i.dataType.toJson := by
    rw [hlookup, if_neg (hkeys "data_type")]
    rfl
  rw [show i.toJson = object i.members from rfl, without_object,
    ofJson?_object hnodup hopcode hdata, Opcode.ofJson?_toJson, htype,
    hoperand "dest" i.dest rfl (hkeys "dest"), hoperand "src1" i.src1 rfl (hkeys "src1"),
    hoperand "src2" i.src2 rfl (hkeys "src2"), hoperand "src3" i.src3 rfl (hkeys "src3"), hcall]
  rfl

/-- What has been read of an instruction, by its fields. -/
theorem fields_of_ofJson? {levels : Nat} {j : Json} {i : Instruction}
    (h : ofJson? levels j = some i) :
    ∃ opcode dataType dest src1 src2 src3 call,
      j.fields? ["opcode", "data_type", "dest", "src1", "src2", "src3", "call"] 0 =
        some [some opcode, some dataType, dest, src1, src2, src3, call] ∧
      Ty.ofJson? (levels - 1) dataType = some i.dataType ∧
      optional? Operand.ofJson? dest = some i.dest ∧
      optional? Operand.ofJson? src1 = some i.src1 ∧
      optional? Operand.ofJson? src2 = some i.src2 ∧
      optional? Operand.ofJson? src3 = some i.src3 ∧
      optional? Call.ofJson? call = some i.call := by
  rw [ofJson?, Option.bind_eq_bind, Option.bind_eq_some_iff] at h
  obtain ⟨fields, hfields, h⟩ := h
  split at h
  next opcode dataType dest src1 src2 src3 call =>
    simp only [Option.bind_eq_bind, Option.bind_eq_some_iff, Option.pure_def,
      Option.some.injEq] at h
    obtain ⟨_, -, _, htype, _, hdest, _, hsrc1, _, hsrc2, _, hsrc3, _, hcall, rfl⟩ := h
    exact ⟨opcode, dataType, dest, src1, src2, src3, call, hfields, htype, hdest, hsrc1, hsrc2,
      hsrc3, hcall⟩
  next => cases h

/-- The operands that an object lacks are absent from the instruction that is read. -/
theorem absent_of_missing {levels : Nat} {members : List (Option String × Json)}
    {i : Instruction} (h : ofJson? levels (.obj members) = some i) {key : String}
    (hkey : key ∈ ["dest", "src1", "src2", "src3", "call"])
    (hmissing : ∀ m ∈ members, m.1 ≠ some key) : i.Absent key := by
  obtain ⟨opcode, dataType, dest, src1, src2, src3, call, hfields, -, hdest, hsrc1, hsrc2, hsrc3,
    hcall⟩ := fields_of_ofJson? h
  have hall := forall₂_of_fields?_obj hfields
  simp only [List.forall₂_cons, List.Forall₂.nil, and_true] at hall
  obtain ⟨-, -, hd, h1, h2, h3, hc⟩ := hall
  simp only [List.mem_cons, List.not_mem_nil, or_false] at hkey
  obtain rfl | rfl | rfl | rfl | rfl := hkey
  · exact eq_none_of_missing hmissing hd hdest
  · exact eq_none_of_missing hmissing h1 hsrc1
  · exact eq_none_of_missing hmissing h2 hsrc2
  · exact eq_none_of_missing hmissing h3 hsrc3
  · exact eq_none_of_missing hmissing hc hcall

/-- The type of an instruction is read back where the instruction is not too deep. -/
theorem type_of_depth {levels : Nat} {i : Instruction} (h : i.toJson.depth ≤ levels) :
    Ty.ofJson? (levels - 1) i.dataType.toJson = some i.dataType := by
  have htype : i.dataType.toJson.depth < i.toJson.depth :=
    depth_lt_of_mem_object (.tail _ (.head _))
  exact Ty.faithful.shallow (Nat.le_sub_one_of_lt (htype.trans_le h))

theorem faithful : Faithful toJson ofJson? where
  plain i := by
    have hoperand := @plain_ofOption _ Operand.toJson Operand.plain_toJson
    have hcall := @plain_ofOption _ Call.toJson Call.plain_toJson
    simp [toJson, Opcode.toJson, Ty.plain_toJson, hoperand, hcall]
  shallow {levels i} hdepth := by
    rw [← without_nil i.toJson]
    exact ofJson?_without (by simp) (type_of_depth hdepth)
  again {levels j i} h := by
    obtain ⟨-, dataType, -, -, -, -, -, -, htype, -⟩ := fields_of_ofJson? h
    rw [← without_nil i.toJson]
    exact ofJson?_without (by simp) (Ty.faithful.again htype)

end Instruction

namespace Block

/-- A block is read back if its instructions are. -/
theorem ofJson?_toJson_of {levels : Nat} {b : Block}
    (h : (b.instructions.map Instruction.toJson).mapM (Instruction.ofJson? (levels - 2)) =
      some b.instructions) : ofJson? levels b.toJson = some b := by
  have hread : ∀ n d is, ofJson? levels (object [("name", n), ("id", d), ("instructions", is)]) =
      (do return ⟨← n.string?, ← d.word32?,
        ← (← is.array?).mapM (Instruction.ofJson? (levels - 2))⟩) := fun _ _ _ => rfl
  rw [toJson, hread, string?_string, word32?_ofWord32, array?_arr]
  simp [h]

theorem faithful : Faithful toJson ofJson? where
  plain b := by
    simp only [toJson, plain_object, List.forall_mem_cons]
    exact ⟨plain_string _, plain_integer _, Instruction.faithful.plain_arr _,
      List.forall_mem_nil _⟩
  shallow {levels b} hdepth :=
    ofJson?_toJson_of (Instruction.faithful.mapM_shallow "instructions" hdepth (by simp))
  again {levels j b} h := by
    rw [ofJson?, Option.bind_eq_bind, Option.bind_eq_some_iff] at h
    obtain ⟨fields, -, h⟩ := h
    split at h
    next name id instructions =>
      simp only [Option.bind_eq_bind, Option.bind_eq_some_iff, Option.pure_def,
        Option.some.injEq] at h
      obtain ⟨name, -, id, -, items, -, is, his, rfl⟩ := h
      exact ofJson?_toJson_of (Instruction.faithful.mapM_again his)
    next => cases h

end Block

namespace Func

theorem argFaithful : Faithful argToJson argOfJson? where
  plain arg := by
    simp [argToJson, Ty.plain_toJson, RegName.plain_toJson]
  shallow {levels arg} hdepth := by
    have htype := depth_lt_of_mem_arr (show arg.1.toJson ∈ [arg.1.toJson, arg.2.toJson] by simp)
    have hread := Ty.faithful.shallow (Nat.le_sub_one_of_lt (htype.trans_le hdepth))
    simp [argToJson, argOfJson?, hread]
  again {levels j arg} h := by
    unfold argOfJson? at h
    split at h
    next type reg =>
      simp only [Option.bind_eq_bind, Option.bind_eq_some_iff, Option.pure_def,
        Option.some.injEq] at h
      obtain ⟨t, ht, r, -, rfl⟩ := h
      simp [argToJson, argOfJson?, Ty.faithful.again ht]
    next => cases h

/-- A function is read back if its return type, its arguments and its blocks are. -/
theorem ofJson?_toJson_of {levels : Nat} {f : Func}
    (hreturn : Ty.ofJson? (levels - 1) f.returnType.toJson = some f.returnType)
    (hargs : (f.args.map argToJson).mapM (argOfJson? (levels - 2)) = some f.args)
    (hblocks : (f.blocks.map Block.toJson).mapM (Block.ofJson? (levels - 2)) = some f.blocks) :
    ofJson? levels f.toJson = some f := by
  have hread : ∀ n l r a b s d, ofJson? levels (object [("name", n), ("linkage", l),
        ("return_type", r), ("args", a), ("blocks", b), ("stack_size", s),
        ("next_block_id", d)]) =
      (do return ⟨← n.string?, ← Linkage.ofJson? l, ← Ty.ofJson? (levels - 1) r,
        ← (← a.array?).mapM (argOfJson? (levels - 2)),
        ← (← b.array?).mapM (Block.ofJson? (levels - 2)), ← s.word32?, ← d.word32?⟩) :=
    fun _ _ _ _ _ _ _ => rfl
  rw [toJson, hread, string?_string, Linkage.ofJson?_toJson, hreturn, array?_arr, array?_arr,
    word32?_ofWord32, word32?_ofWord32]
  simp [hargs, hblocks]

theorem faithful : Faithful toJson ofJson? where
  plain f := by
    have hlinkage : f.linkage.toJson.Plain := by
      cases f.linkage <;> exact plain_string _
    simp only [toJson, plain_object, List.forall_mem_cons]
    exact ⟨plain_string _, hlinkage, Ty.plain_toJson _, argFaithful.plain_arr _,
      Block.faithful.plain_arr _, plain_integer _, plain_integer _, List.forall_mem_nil _⟩
  shallow {levels f} hdepth := by
    have hreturn : f.returnType.toJson.depth < f.toJson.depth :=
      depth_lt_of_mem_object (.tail _ (.tail _ (.head _)))
    refine ofJson?_toJson_of (Ty.faithful.shallow (Nat.le_sub_one_of_lt ?_))
      (argFaithful.mapM_shallow "args" hdepth (by simp))
      (Block.faithful.mapM_shallow "blocks" hdepth (by simp))
    exact hreturn.trans_le hdepth
  again {levels j f} h := by
    rw [ofJson?, Option.bind_eq_bind, Option.bind_eq_some_iff] at h
    obtain ⟨fields, -, h⟩ := h
    split at h
    next name linkage returnType args blocks stackSize nextBlockId =>
      simp only [Option.bind_eq_bind, Option.bind_eq_some_iff, Option.pure_def,
        Option.some.injEq] at h
      obtain ⟨_, -, _, -, _, hreturn, _, -, _, hargs, _, -, _, hblocks, _, -, _, -, rfl⟩ := h
      exact ofJson?_toJson_of (Ty.faithful.again hreturn) (argFaithful.mapM_again hargs)
        (Block.faithful.mapM_again hblocks)
    next => cases h

end Func

namespace Module

/-- The strings of a module are read back. -/
theorem mapM_strings (m : Module) :
    (m.strings.map StringConst.toJson).mapM StringConst.ofJson? = some m.strings :=
  mapM_map_write fun s _ => s.ofJson?_toJson

/-- The functions of a module are read back where the module is not too deep. -/
theorem functions_of_depth {levels : Nat} {m : Module} (h : m.toJson.depth ≤ levels) :
    (m.functions.map Func.toJson).mapM (Func.ofJson? (levels - 2)) = some m.functions :=
  Func.faithful.mapM_shallow "functions" h (by simp)

/-- A module is read back if its functions are. -/
theorem ofJson?_toJson_of {levels : Nat} {m : Module}
    (h : (m.functions.map Func.toJson).mapM (Func.ofJson? (levels - 2)) = some m.functions) :
    ofJson? levels m.toJson = some m := by
  have hread : ∀ n f s l, ofJson? levels (object [("name", n), ("functions", f), ("strings", s),
        ("lowered", l)]) =
      (do return ⟨← n.string?, ← (← f.array?).mapM (Func.ofJson? (levels - 2)),
        ← (← s.array?).mapM StringConst.ofJson?, ← l.bool?⟩) :=
    fun _ _ _ _ => rfl
  rw [toJson, hread, string?_string, array?_arr, array?_arr, bool?_bool]
  simp [h, m.mapM_strings]

/-- The flag may be left out of a module that has not been lowered. -/
theorem ofJson?_without_lowered {levels : Nat} {m : Module} (hm : m.lowered = false)
    (h : (m.functions.map Func.toJson).mapM (Func.ofJson? (levels - 2)) = some m.functions) :
    ofJson? levels (m.toJson.without ["lowered"]) = some m := by
  have htree : m.toJson.without ["lowered"] = object [("name", string m.name),
      ("functions", .arr (m.functions.map Func.toJson)),
      ("strings", .arr (m.strings.map StringConst.toJson))] := by
    rw [toJson, without_object]
    rfl
  have hread : ∀ n f s, ofJson? levels (object [("name", n), ("functions", f), ("strings", s)]) =
      (do return ⟨← n.string?, ← (← f.array?).mapM (Func.ofJson? (levels - 2)),
        ← (← s.array?).mapM StringConst.ofJson?, false⟩) :=
    fun _ _ _ => rfl
  rw [htree, hread, string?_string, array?_arr, array?_arr]
  simp [h, m.mapM_strings, ← hm]

/-- What has been read of a module, by its fields. -/
theorem fields_of_ofJson? {levels : Nat} {j : Json} {m : Module}
    (h : ofJson? levels j = some m) :
    ∃ name functions strings lowered, ∃ items : List Json,
      j.fields? ["name", "functions", "strings", "lowered"] 1 =
        some [some name, some functions, some strings, lowered] ∧
      items.mapM (Func.ofJson? (levels - 2)) = some m.functions ∧
      (lowered = none → m.lowered = false) := by
  rw [ofJson?, Option.bind_eq_bind, Option.bind_eq_some_iff] at h
  obtain ⟨fields, hfields, h⟩ := h
  split at h
  next name functions strings lowered =>
    cases lowered with
    | none =>
        simp only [Option.bind_eq_bind, Option.bind_eq_some_iff, Option.pure_def,
          Option.some.injEq] at h
        obtain ⟨_, -, items, -, _, hitems, _, -, _, -, _, rfl, rfl⟩ := h
        exact ⟨name, functions, strings, none, items, hfields, hitems, fun _ => rfl⟩
    | some flag =>
        simp only [Option.bind_eq_bind, Option.bind_eq_some_iff, Option.pure_def,
          Option.some.injEq] at h
        obtain ⟨_, -, items, -, _, hitems, _, -, _, -, _, -, rfl⟩ := h
        exact ⟨name, functions, strings, some flag, items, hfields, hitems, nofun⟩
  next => cases h

/-- A module that is read from an object without the flag has not been lowered. -/
theorem lowered_of_missing {levels : Nat} {members : List (Option String × Json)} {m : Module}
    (h : ofJson? levels (.obj members) = some m)
    (hmissing : ∀ x ∈ members, x.1 ≠ some "lowered") : m.lowered = false := by
  obtain ⟨name, functions, strings, lowered, items, hfields, -, hlowered⟩ := fields_of_ofJson? h
  have hall := forall₂_of_fields?_obj hfields
  simp only [List.forall₂_cons, List.Forall₂.nil, and_true] at hall
  obtain ⟨-, -, -, hfield⟩ := hall
  exact hlowered (Option.some.inj (hfield.symm.trans (field?_of_missing hmissing)))

theorem faithful : Faithful toJson ofJson? where
  plain m := by
    simp only [toJson, plain_object, List.forall_mem_cons]
    refine ⟨plain_string _, Func.faithful.plain_arr _, ?_, plain_bool _, List.forall_mem_nil _⟩
    exact Json.plain_arr.mpr (List.forall_mem_map.mpr fun s _ => s.plain_toJson)
  shallow hdepth := ofJson?_toJson_of (functions_of_depth hdepth)
  again {levels j m} h := by
    obtain ⟨-, -, -, -, items, -, hitems, -⟩ := fields_of_ofJson? h
    exact ofJson?_toJson_of (Func.faithful.mapM_again hitems)

end Module

end RegIR
