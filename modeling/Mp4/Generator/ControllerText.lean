import Mathlib.Data.Nat.Log
import Mp4.Lib.CaseStatement

/-!
The text of `which_dirty`, `set_defaults` and the miss states that `control()` in
`n_way_cache.py` writes, and the statements that this text consists of.
-/

set_option autoImplicit false
set_option relaxedAutoImplicit false

namespace Mp4.Generator.ControllerText

open Mp4.Lib.CaseStatement

section Signals

inductive Signal
  | read
  | write
  | cachelineSel
  | replaceWhichWay
  | dirty
  | replace
  | lruIn
  | lruLoad
  | lruRead
  | pmemRead
  | pmemWrite
  | newAddressSel
  | done
  | d (way : ℕ)
  | dirtyOut (way : ℕ)
  | dirtyIn (way : ℕ)
  | dirtyLoad (way : ℕ)
  | validIn (way : ℕ)
  | validLoad (way : ℕ)
  | validInRead (way : ℕ)
  | tagArrayLoad (way : ℕ)
  | writeSelWay (way : ℕ)
  | writeReadSel (way : ℕ)
  | readDirtyArray (way : ℕ)
  | readTagArray (way : ℕ)
  | readDataArray (way : ℕ)
  deriving DecidableEq, Repr

def Signal.text : Signal → String
  | read => "read"
  | write => "write"
  | cachelineSel => "cacheline_sel"
  | replaceWhichWay => "replace_which_way"
  | dirty => "dirty"
  | replace => "replace"
  | lruIn => "LRU_in"
  | lruLoad => "LRU_load"
  | lruRead => "LRU_read"
  | pmemRead => "pmem_read"
  | pmemWrite => "pmem_write"
  | newAddressSel => "new_address_sel"
  | done => "done"
  | d way => "d" ++ toString way
  | dirtyOut way => "Dirty" ++ toString way ++ "_out"
  | dirtyIn way => "Dirty" ++ toString way ++ "_in"
  | dirtyLoad way => "Dirty" ++ toString way ++ "_load"
  | validIn way => "valid_" ++ toString way ++ "_in"
  | validLoad way => "valid_" ++ toString way ++ "_load"
  | validInRead way => "valid_" ++ toString way ++ "_in_read"
  | tagArrayLoad way => "tag_array" ++ toString way ++ "_load"
  | writeSelWay way => "write_sel_way_" ++ toString way
  | writeReadSel way => "write_read_sel_" ++ toString way
  | readDirtyArray way => "read_dirty_array_" ++ toString way
  | readTagArray way => "read_tag_array_" ++ toString way
  | readDataArray way => "read_data_array_" ++ toString way

/-- `int(math.log2(ways))`, which is exact for the powers of two. -/
def log2 (ways : ℕ) : ℕ := Nat.log 2 ways

def width (ways : ℕ) : Signal → ℕ
  | .cachelineSel | .replaceWhichWay => log2 ways
  | .replace => 3
  | .lruIn => ways - 1
  | .writeSelWay _ => 2
  | _ => 1

end Signals

section Statements

/-- `size'b` and `bin(n)[2:]`. -/
def sized (size n : ℕ) : Literal := ⟨size, binary n⟩

def put (target : Signal) (size n : ℕ) : Assignment Signal := ⟨target, .literal (sized size n)⟩

def copy (target source : Signal) : Assignment Signal := ⟨target, .signal source⟩

def each (ways : ℕ) (assignment : ℕ → Assignment Signal) : List (Assignment Signal) :=
  (List.range ways).map fun i => assignment (i + 1)

def whichDirtyItem (ways i : ℕ) : Literal × List (Assignment Signal) :=
  (sized (log2 ways) i, [copy .dirty (.d (i + 1))])

/-- `which_dirty`. -/
def whichDirty (ways : ℕ) : Case Signal := ⟨.replace, (List.range ways).map (whichDirtyItem ways)⟩

def whichDirtyArguments (ways : ℕ) : List (Assignment Signal) :=
  copy .replace .replaceWhichWay :: each ways fun way => copy (.d way) (.dirtyOut way)

/-- `set_defaults`. -/
def setDefaults (ways : ℕ) : List (Assignment Signal) :=
  [put .cachelineSel (log2 ways) 0] ++ each ways (fun way => put (.validIn way) 1 0) ++
  [put .lruIn (ways - 1) 0, put .lruLoad 1 0, put .lruRead 1 1] ++
  each ways (fun way => put (.dirtyLoad way) 1 0) ++
  each ways (fun way => put (.tagArrayLoad way) 1 0) ++
  each ways (fun way => put (.validLoad way) 1 0) ++
  each ways (fun way => ⟨.writeSelWay way, .literal ⟨2, [false, false]⟩⟩) ++
  each ways (fun way => put (.readDirtyArray way) 1 1) ++
  each ways (fun way => put (.readTagArray way) 1 1) ++
  each ways (fun way => put (.readDataArray way) 1 1) ++
  each ways (fun way => put (.validInRead way) 1 1) ++
  [put .pmemRead 1 0, put .pmemWrite 1 0, put .newAddressSel 1 0, put .done 1 0] ++
  each ways (fun way => put (.writeReadSel way) 1 0)

def missCleanItem (i : ℕ) : Literal × List (Assignment Signal) :=
  (sized 3 i, [put (.tagArrayLoad (i + 1)) 1 1, put (.validLoad (i + 1)) 1 1,
    put (.validIn (i + 1)) 1 1, ⟨.writeSelWay (i + 1), .literal ⟨2, [false, true]⟩⟩])

/-- The case statement of `miss_clean`, the same for reading and for writing. -/
def missCleanCase (ways : ℕ) : Case Signal :=
  ⟨.replaceWhichWay, (List.range ways).map missCleanItem⟩

def missDirtyItem (ways i : ℕ) : Literal × List (Assignment Signal) :=
  (sized (log2 ways) i, [put (.dirtyIn (i + 1)) 1 0, put (.dirtyLoad (i + 1)) 1 1])

/-- The case statement of `miss_dirty`. -/
def missDirtyCase (ways : ℕ) : Case Signal :=
  ⟨.replaceWhichWay, (List.range ways).map (missDirtyItem ways)⟩

end Statements

section Python

def bin (n : ℕ) : List Char :=
  '0' :: 'b' :: (binary n).map fun digit => if digit then '1' else '0'

/-- `for i in range(ways): file_content += text(i)`. -/
def loop (ways : ℕ) (text : ℕ → String) (fileContent : String) : String :=
  (List.range ways).foldl (fun fileContent i => fileContent ++ text i) fileContent

/-- The lines that write `which_dirty`. -/
def writeWhichDirty (ways : ℕ) (fileContent : String) : String :=
  let fileContent := fileContent ++ "function void which_dirty( logic [2:0] replace, "
  let fileContent := loop ways (fun i =>
    if i < ways - 1 then " logic d" ++ toString (i + 1) ++ ","
    else " logic d" ++ toString (i + 1) ++ ");\n\t") fileContent
  let fileContent := fileContent ++ "case (replace)\n"
  let fileContent := loop ways (fun i =>
    "\t" ++ toString (log2 ways) ++ "'" ++ String.ofList ((bin i).drop 1) ++
      (": dirty = d" ++ toString (i + 1) ++ ";\n")) fileContent
  let fileContent := fileContent ++ "\tendcase\n"
  fileContent ++ "endfunction\n\n"

/-- The loop that writes the items of `miss_clean`, once for reading and once for writing. -/
def writeMissCleanItems (ways : ℕ) (fileContent : String) : String :=
  let tab := "\t\t\t\t"
  loop ways (fun i =>
    "\t\t\t3'b" ++ String.ofList ((bin i).drop 2) ++ ": begin\n" ++
    (tab ++ "tag_array" ++ toString (i + 1) ++ "_load = 1'b1;\n") ++
    (tab ++ "valid_" ++ toString (i + 1) ++ "_load = 1'b1;\n") ++
    (tab ++ "valid_" ++ toString (i + 1) ++ "_in = 1'b1;\n") ++
    (tab ++ "write_sel_way_" ++ toString (i + 1) ++ " = 2'b01;\n") ++
    ("\t\t\t" ++ "end\n")) fileContent

def writeMissClean (ways : ℕ) (fileContent : String) : String :=
  let fileContent := fileContent ++ "\tmiss_clean:begin\n"
  let fileContent := fileContent ++ ("\t\tpmem_read = 1'b1;\n\t\tif(read) begin\n" ++
    "\t\t\tcacheline_sel = replace_which_way;\n\t\t\tcase(replace_which_way)\n")
  let fileContent := writeMissCleanItems ways fileContent
  let fileContent := fileContent ++ ("\t\t" ++ "endcase\n")
  let fileContent := fileContent ++ ("\t" ++ "end\n")
  let fileContent := fileContent ++ ("\telse if (write) begin\n" ++
    "\t\tcacheline_sel = replace_which_way;\n\t\tcase(replace_which_way)\n")
  let fileContent := writeMissCleanItems ways fileContent
  let fileContent := fileContent ++ ("\t\t" ++ "endcase\n")
  fileContent ++ ("\t" ++ "end\nend\n")

def writeMissDirty (ways : ℕ) (fileContent : String) : String :=
  let fileContent := fileContent ++ "\tmiss_dirty:begin\n"
  let fileContent := fileContent ++ ("\t\tpmem_write = 1'b1;\n\t\tnew_address_sel = 1'b1;\n" ++
    "\t\tcacheline_sel=replace_which_way;\n")
  let fileContent := fileContent ++ "\t\tcase (replace_which_way)\n"
  let fileContent := loop ways (fun i =>
    "\t\t\t" ++ toString (log2 ways) ++ "'b" ++ String.ofList ((bin i).drop 2) ++ ": begin\n" ++
    ("\t\t\tDirty" ++ toString (i + 1) ++ "_in = 1'b0;\n") ++
    ("\t\t\tDirty" ++ toString (i + 1) ++ "_load = 1'b1;\n\t\tend\n")) fileContent
  fileContent ++ "\tendcase\nend\nendcase\nend"

end Python

section Printing

def concat (texts : List String) : String := texts.foldr (· ++ ·) ""

def literalText (l : Literal) : String :=
  toString l.size ++ "'b" ++ String.ofList (l.digits.map fun digit => if digit then '1' else '0')

def exprText : Expr Signal → String
  | .literal l => literalText l
  | .signal s => s.text

def line (before equals after : String) (a : Assignment Signal) : String :=
  before ++ a.target.text ++ equals ++ exprText a.value ++ ";" ++ after

/-- The items of a case statement with the space around them. -/
def itemsText (before opening : String) (body : Assignment Signal → String) (closing : String)
    (items : List (Literal × List (Assignment Signal))) : String :=
  concat (items.map fun item =>
    before ++ literalText item.1 ++ opening ++ concat (item.2.map body) ++ closing)

private theorem loop_eq (ways : ℕ) (text : ℕ → String) (fileContent : String) :
    loop ways text fileContent = fileContent ++ concat ((List.range ways).map text) := by
  rw [loop]
  induction List.range ways generalizing fileContent with
  | nil => exact String.append_empty.symm
  | cons i l ih =>
    rw [List.foldl_cons, ih, String.append_assoc]
    rfl

private theorem loop_items {ways : ℕ} {before opening closing : String}
    {body : Assignment Signal → String} {text : ℕ → String}
    {item : ℕ → Literal × List (Assignment Signal)}
    (same : ∀ i, text i = before ++ literalText (item i).1 ++ opening ++
      concat ((item i).2.map body) ++ closing) (fileContent : String) :
    loop ways text fileContent =
      fileContent ++ itemsText before opening body closing ((List.range ways).map item) := by
  rw [loop_eq, itemsText, List.map_map, funext same]
  rfl

private theorem digits_bin (text : String) (i : ℕ) :
    text ++ "'" ++ String.ofList ((bin i).drop 1) =
      text ++ "'b" ++ String.ofList ((bin i).drop 2) := by
  have digits : (bin i).drop 1 = 'b' :: (bin i).drop 2 := rfl
  have quote : "'" ++ String.singleton 'b' = "'b" := rfl
  rw [digits, String.ofList_cons, ← String.append_assoc, ← quote, ← String.append_assoc]

private theorem whichDirtyItem_text (ways i : ℕ) :
    "\t" ++ toString (log2 ways) ++ "'" ++ String.ofList ((bin i).drop 1) ++
      (": dirty = d" ++ toString (i + 1) ++ ";\n") =
    "\t" ++ literalText (whichDirtyItem ways i).1 ++ ": " ++
      concat ((whichDirtyItem ways i).2.map (line "" " = " "\n")) ++ "" := by
  have middle : ": dirty = d" = ": " ++ ("dirty" ++ (" = " ++ "d")) := rfl
  have last : ";\n" = ";" ++ "\n" := rfl
  have target : Signal.dirty.text = "dirty" := rfl
  have source : (Signal.d (i + 1)).text = "d" ++ toString (i + 1) := rfl
  have digits : literalText (sized (log2 ways) i) =
    toString (log2 ways) ++ ("'b" ++ String.ofList ((bin i).drop 2)) := String.append_assoc
  rw [middle, last, digits_bin]
  simp only [whichDirtyItem, copy, digits, line, exprText, concat, target, source, List.map_cons,
    List.map_nil, List.foldr_cons, List.foldr_nil, String.empty_append, String.append_empty,
    String.append_assoc]

private theorem missCleanItem_text (i : ℕ) :
    "\t\t\t3'b" ++ String.ofList ((bin i).drop 2) ++ ": begin\n" ++
      ("\t\t\t\t" ++ "tag_array" ++ toString (i + 1) ++ "_load = 1'b1;\n") ++
      ("\t\t\t\t" ++ "valid_" ++ toString (i + 1) ++ "_load = 1'b1;\n") ++
      ("\t\t\t\t" ++ "valid_" ++ toString (i + 1) ++ "_in = 1'b1;\n") ++
      ("\t\t\t\t" ++ "write_sel_way_" ++ toString (i + 1) ++ " = 2'b01;\n") ++
      ("\t\t\t" ++ "end\n") =
    "\t\t\t" ++ literalText (missCleanItem i).1 ++ ": begin\n" ++
      concat ((missCleanItem i).2.map (line "\t\t\t\t" " = " "\n")) ++
      "\t\t\tend\n" := by
  have first : "\t\t\t3'b" = "\t\t\t" ++ ("3" ++ "'b") := rfl
  have load : "_load = 1'b1;\n" = "_load" ++ (" = " ++ ("1'b1" ++ (";" ++ "\n"))) := rfl
  have value : "_in = 1'b1;\n" = "_in" ++ (" = " ++ ("1'b1" ++ (";" ++ "\n"))) := rfl
  have selection : " = 2'b01;\n" = " = " ++ ("2'b01" ++ (";" ++ "\n")) := rfl
  have last : "\t\t\t" ++ "end\n" = "\t\t\tend\n" := rfl
  have three : toString 3 = "3" := rfl
  have one : literalText (sized 1 1) = "1'b1" := by
    rw [sized, binary_one]
    rfl
  have two : literalText ⟨2, [false, true]⟩ = "2'b01" := rfl
  have digits : literalText (sized 3 i) = "3" ++ "'b" ++ String.ofList ((bin i).drop 2) := by
    rw [← three]
    rfl
  have tag : (Signal.tagArrayLoad (i + 1)).text = "tag_array" ++ toString (i + 1) ++ "_load" := rfl
  have valid : (Signal.validLoad (i + 1)).text = "valid_" ++ toString (i + 1) ++ "_load" := rfl
  have validIn : (Signal.validIn (i + 1)).text = "valid_" ++ toString (i + 1) ++ "_in" := rfl
  have way : (Signal.writeSelWay (i + 1)).text = "write_sel_way_" ++ toString (i + 1) := rfl
  rw [first, load, value, selection, last]
  simp only [missCleanItem, put, digits, line, exprText, one, two, concat, tag,
    valid, validIn, way, List.map_cons, List.map_nil, List.foldr_cons, List.foldr_nil,
    String.append_empty, String.append_assoc]

private theorem missDirtyItem_text (ways i : ℕ) :
    "\t\t\t" ++ toString (log2 ways) ++ "'b" ++ String.ofList ((bin i).drop 2) ++ ": begin\n" ++
      ("\t\t\tDirty" ++ toString (i + 1) ++ "_in = 1'b0;\n") ++
      ("\t\t\tDirty" ++ toString (i + 1) ++ "_load = 1'b1;\n\t\tend\n") =
    "\t\t\t" ++ literalText (missDirtyItem ways i).1 ++ ": begin\n" ++
      concat ((missDirtyItem ways i).2.map (line "\t\t\t" " = " "\n")) ++ "\t\tend\n" := by
  have name : "\t\t\tDirty" = "\t\t\t" ++ "Dirty" := rfl
  have value : "_in = 1'b0;\n" = "_in" ++ (" = " ++ ("1'b0" ++ (";" ++ "\n"))) := rfl
  have load : "_load = 1'b1;\n\t\tend\n" =
    "_load" ++ (" = " ++ ("1'b1" ++ (";" ++ ("\n" ++ "\t\tend\n")))) := rfl
  have zero : literalText (sized 1 0) = "1'b0" := by
    rw [sized, binary_zero]
    rfl
  have one : literalText (sized 1 1) = "1'b1" := by
    rw [sized, binary_one]
    rfl
  have digits : literalText (sized (log2 ways) i) =
    toString (log2 ways) ++ "'b" ++ String.ofList ((bin i).drop 2) := rfl
  have dirtyIn : (Signal.dirtyIn (i + 1)).text = "Dirty" ++ toString (i + 1) ++ "_in" := rfl
  have dirtyLoad : (Signal.dirtyLoad (i + 1)).text = "Dirty" ++ toString (i + 1) ++ "_load" := rfl
  rw [name, value, load]
  simp only [missDirtyItem, put, digits, line, exprText, zero, one, concat,
    dirtyIn, dirtyLoad, List.map_cons, List.map_nil, List.foldr_cons, List.foldr_nil,
    String.append_empty, String.append_assoc]

theorem writeWhichDirty_eq (ways : ℕ) (fileContent : String) :
    writeWhichDirty ways fileContent =
      loop ways (fun i => if i < ways - 1 then " logic d" ++ toString (i + 1) ++ ","
        else " logic d" ++ toString (i + 1) ++ ");\n\t")
        (fileContent ++ "function void which_dirty( logic [2:0] replace, ") ++
      ("case (" ++ (whichDirty ways).selector.text ++ ")\n") ++
      itemsText "\t" ": " (line "" " = " "\n") "" (whichDirty ways).items ++
      "\tendcase\n" ++ "endfunction\n\n" := by
  rw [writeWhichDirty, loop_items (whichDirtyItem_text ways)]
  rfl

private theorem writeMissCleanItems_eq (ways : ℕ) (fileContent : String) :
    writeMissCleanItems ways fileContent = fileContent ++
      itemsText "\t\t\t" ": begin\n" (line "\t\t\t\t" " = " "\n") "\t\t\tend\n"
        (missCleanCase ways).items :=
  loop_items missCleanItem_text fileContent

theorem writeMissClean_eq (ways : ℕ) (fileContent : String) :
    writeMissClean ways fileContent = fileContent ++ "\tmiss_clean:begin\n" ++
      (line "\t\t" " = " "\n" (put .pmemRead 1 1) ++ "\t\tif(read) begin\n") ++
      (line "\t\t\t" " = " "\n" (copy .cachelineSel .replaceWhichWay) ++
        ("\t\t\tcase(" ++ (missCleanCase ways).selector.text ++ ")\n")) ++
      itemsText "\t\t\t" ": begin\n" (line "\t\t\t\t" " = " "\n") "\t\t\tend\n"
        (missCleanCase ways).items ++
      "\t\tendcase\n" ++ "\tend\n" ++ "\telse if (write) begin\n" ++
      (line "\t\t" " = " "\n" (copy .cachelineSel .replaceWhichWay) ++
        ("\t\tcase(" ++ (missCleanCase ways).selector.text ++ ")\n")) ++
      itemsText "\t\t\t" ": begin\n" (line "\t\t\t\t" " = " "\n") "\t\t\tend\n"
        (missCleanCase ways).items ++
      "\t\tendcase\n" ++ "\tend\nend\n" := by
  have pmemRead : "\t\tpmem_read = 1'b1;\n\t\tif(read) begin\n" =
      line "\t\t" " = " "\n" (put .pmemRead 1 1) ++ "\t\tif(read) begin\n" := by
    rw [put, sized, binary_one]
    rfl
  rw [writeMissClean, writeMissCleanItems_eq, writeMissCleanItems_eq, pmemRead]
  simp only [String.append_assoc]
  rfl

theorem writeMissDirty_eq (ways : ℕ) (fileContent : String) :
    writeMissDirty ways fileContent = fileContent ++ "\tmiss_dirty:begin\n" ++
      (line "\t\t" " = " "\n" (put .pmemWrite 1 1) ++
        line "\t\t" " = " "\n" (put .newAddressSel 1 1) ++
        line "\t\t" "=" "\n" (copy .cachelineSel .replaceWhichWay)) ++
      ("\t\tcase (" ++ (missDirtyCase ways).selector.text ++ ")\n") ++
      itemsText "\t\t\t" ": begin\n" (line "\t\t\t" " = " "\n") "\t\tend\n"
        (missDirtyCase ways).items ++
      "\tendcase\nend\nendcase\nend" := by
  have heads : "\t\tpmem_write = 1'b1;\n\t\tnew_address_sel = 1'b1;\n" =
      line "\t\t" " = " "\n" (put .pmemWrite 1 1) ++
        line "\t\t" " = " "\n" (put .newAddressSel 1 1) := by
    rw [put, put, sized, binary_one]
    rfl
  rw [writeMissDirty, loop_items (missDirtyItem_text ways), heads]
  rfl

end Printing

end Mp4.Generator.ControllerText
