/-
Modules survive the JSON format. What is written for a valid module is the text of one tree, with an
object to an instruction; a document that shows the tree has its fields taken one by one, and what they
say of each instruction is what it was, an operand that is zero as much as any other.
-/
import LetIf.Json.Module
import LetIf.Proofs.Code.Same
import LetIf.Proofs.Code.Validation
import LetIf.Proofs.Json.Documents

namespace LetIf.Json

open Text Code

/-! ## The document of a module -/

/-- A member of an object, under an ASCII name. -/
def field (name : String) (t : Tree) : List Char × Tree := (name.toList, t)

/-- The object of an instruction with its operands. -/
def operation (op : String) (operands : List (List Char × Tree)) : Tree :=
  .object (field "op" (.string op.toList) :: operands)

mutual

def instrTree : Instr → Tree
  | .const n => operation "i32.const" [field "value" (.int n.toInt)]
  | .select => operation "select" []
  | .branch yes no =>
    operation "if" [field "then" (.list (codeTrees yes)), field "else" (.list (codeTrees no))]
  | .localGet i => operation "local.get" [field "index" (.int i.toNat)]
  | .localSet i => operation "local.set" [field "index" (.int i.toNat)]
  | .stop => operation "end" []
  | .unknown => .object []

def codeTrees : List Instr → List Tree
  | [] => []
  | i :: is => instrTree i :: codeTrees is

end

/-- The document that is written for a module. -/
def document (m : Module) : Tree :=
  .object [field "export" (.string ((pieces m.name).map Piece.toChar)), field "locals" (.int m.locals.toNat),
    field "body" (.list (codeTrees m.body))]

attribute [local simp] instrTree codeTrees instrOf encodeInstr draftMembers moduleMembers

/-! ## Fields -/

theorem sameName_toList (name key : String) :
    sameName name (ofChars key.toList) = (key.toList.map foldChar == name.toList.map foldChar) := by
  rw [ofString_eq_ofChars, sameName, pieces_ofChars, pieces_ofChars, List.map_map, List.map_map]
  rfl

theorem signed_toInt (mark : Nat) (n : Int32) : signed (.number mark (ofInt n.toInt)) = .ok n := by
  have hle := n.le_toInt
  have hlt := n.toInt_lt
  have hspan : (Bits.span 31 : Int) = 2147483648 := rfl
  rw [signed, int?_ofInt]
  simp only
  rw [if_pos (by omega), Int32.ofInt_toInt]

theorem unsigned_toNat (mark : Nat) (i : UInt32) : unsigned (.number mark (ofInt i.toNat)) = .ok i := by
  have hlt : i.toNat < Bits.span 32 := i.toNat_lt
  have hread : nat? (ofInt i.toNat) = some i.toNat := nat?_ofNat i.toNat
  rw [unsigned, hread]
  simp only
  rw [if_pos hlt, UInt32.ofNat_toNat]

section Fields

variable {op : Text} {value : Option Int32} {index : Option UInt32} {yes no drafts : Slice Draft} {mark : Nat}
  {rest : List (Text × Doc)} {d : Doc}

theorem draftMembers_op (cs : List Char) :
    draftMembers (.mk op value index yes no) ((ofChars "op".toList, .string mark (ofChars cs)) :: rest) =
      draftMembers (.mk (ofChars cs) value index yes no) rest := by
  rw [draftMembers]
  simp only [sameName_toList]
  rw [if_pos (by decide)]
  rfl

theorem draftMembers_value (n : Int32) :
    draftMembers (.mk op value index yes no)
        ((ofChars "value".toList, .number mark (ofInt n.toInt)) :: rest) =
      draftMembers (.mk op (some n) index yes no) rest := by
  rw [draftMembers]
  simp only [sameName_toList]
  rw [if_neg (by decide), if_pos (by decide), Json.optional, signed_toInt]
  · rfl
  · exact nofun

theorem draftMembers_index (i : UInt32) :
    draftMembers (.mk op value index yes no)
        ((ofChars "index".toList, .number mark (ofInt i.toNat)) :: rest) =
      draftMembers (.mk op value (some i) yes no) rest := by
  rw [draftMembers]
  simp only [sameName_toList]
  rw [if_neg (by decide), if_neg (by decide), if_pos (by decide), Json.optional, unsigned_toNat]
  · rfl
  · exact nofun

theorem draftMembers_then (h : draftList yes d = .ok drafts) :
    draftMembers (.mk op value index yes no) ((ofChars "then".toList, d) :: rest) =
      draftMembers (.mk op value index drafts no) rest := by
  rw [draftMembers]
  simp only [sameName_toList]
  rw [if_neg (by decide), if_neg (by decide), if_neg (by decide), if_pos (by decide), h]
  rfl

theorem draftMembers_else (h : draftList no d = .ok drafts) :
    draftMembers (.mk op value index yes no) ((ofChars "else".toList, d) :: rest) =
      draftMembers (.mk op value index yes drafts) rest := by
  rw [draftMembers]
  simp only [sameName_toList]
  rw [if_neg (by decide), if_neg (by decide), if_neg (by decide), if_neg (by decide), if_pos (by decide), h]
  rfl

end Fields

/-! ## Instructions -/

/-- The fields of a document that shows an operation are those of its operands. -/
theorem exists_draft_operation {d : Doc} {op : String} {operands : List (List Char × Tree)}
    (h : Shows d (operation op operands)) :
    ∃ ms, ShowsMembers ms operands ∧
      draft .empty d = draftMembers (.mk (ofString op) none none .nil .nil) ms := by
  unfold operation field at h
  cases h with
  | object mark h =>
    cases h with
    | @cons _ _ _ ms _ hop hms =>
      cases hop with
      | string mark' _ =>
        refine ⟨ms, hms, ?_⟩
        rw [draft, Draft.empty, draftMembers_op, ofString_eq_ofChars]

/-- The instruction is written as the text of its tree, and a document that shows the tree is taken for
it. -/
structure Survives (i : Instr) : Prop where
  written : encodeInstr i = .ok (instrTree i).text
  recovered : ∀ d, Shows d (instrTree i) → ∃ dr, draft .empty d = .ok dr ∧ ∀ path, instrOf path dr = .ok i

theorem draft_of_shows_bare {d : Doc} {op : String} (h : Shows d (operation op [])) :
    draft .empty d = .ok (.mk (ofString op) none none .nil .nil) := by
  obtain ⟨ms, hms, hdraft⟩ := exists_draft_operation h
  cases hms
  rw [hdraft, draftMembers]

theorem draft_of_shows_value {d : Doc} {op : String} {n : Int32}
    (h : Shows d (operation op [field "value" (.int n.toInt)])) :
    draft .empty d = .ok (.mk (ofString op) (some n) none .nil .nil) := by
  obtain ⟨ms, hms, hdraft⟩ := exists_draft_operation h
  unfold field at hms
  cases hms with
  | cons _ hd hms =>
    cases hms
    cases hd
    rw [hdraft, draftMembers_value, draftMembers]

theorem draft_of_shows_index {d : Doc} {op : String} {i : UInt32}
    (h : Shows d (operation op [field "index" (.int i.toNat)])) :
    draft .empty d = .ok (.mk (ofString op) none (some i) .nil .nil) := by
  obtain ⟨ms, hms, hdraft⟩ := exists_draft_operation h
  unfold field at hms
  cases hms with
  | cons _ hd hms =>
    cases hms
    cases hd
    rw [hdraft, draftMembers_index, draftMembers]

/-- The text of an operation with one operand. -/
theorem text_operation_one (op name : String) (t : Tree) :
    (operation op [field name t]).text =
      byte '\x7b' :: quote "op".toList ++ byte ':' :: quote op.toList ++ byte ',' :: quote name.toList ++
        [byte ':'] ++ t.text ++ [byte '\x7d'] := by
  simp only [operation, field, Tree.text, Tree.memberTexts, join_cons, afterCommas, List.flatMap_cons,
    List.flatMap_nil, List.append_assoc, List.cons_append, List.nil_append, List.append_nil]

theorem survives_const (n : Int32) : Survives (.const n) where
  written := by
    rw [encodeInstr, instrTree, text_operation_one, Tree.text]
    rfl
  recovered d h := by
    rw [instrTree] at h
    exact ⟨_, draft_of_shows_value h, fun path => by rw [instrOf, if_pos (by decide)]⟩

theorem survives_get (i : UInt32) : Survives (.localGet i) where
  written := by
    rw [encodeInstr, instrTree, text_operation_one, Tree.text]
    rfl
  recovered d h := by
    rw [instrTree] at h
    refine ⟨_, draft_of_shows_index h, fun path => ?_⟩
    -- the two operations on locals share their case and differ in its last test
    rw [instrOf, if_neg (by decide), if_neg (by decide), if_neg (by decide), if_pos (by decide)]
    rfl

theorem survives_set (i : UInt32) : Survives (.localSet i) where
  written := by
    rw [encodeInstr, instrTree, text_operation_one, Tree.text]
    rfl
  recovered d h := by
    rw [instrTree] at h
    refine ⟨_, draft_of_shows_index h, fun path => ?_⟩
    rw [instrOf, if_neg (by decide), if_neg (by decide), if_neg (by decide), if_pos (by decide)]
    rfl

theorem survives_select : Survives .select where
  written := rfl
  recovered d h := by
    rw [instrTree] at h
    exact ⟨_, draft_of_shows_bare h, fun path => by rw [instrOf, if_neg (by decide), if_pos (by decide)]⟩

theorem survives_stop : Survives .stop where
  written := rfl
  recovered d h := by
    rw [instrTree] at h
    refine ⟨_, draft_of_shows_bare h, fun path => ?_⟩
    rw [instrOf, if_neg (by decide), if_neg (by decide), if_neg (by decide), if_neg (by decide), if_pos (by decide)]

/-! ## Code -/

theorem encodeCode_of_survives : ∀ {is : List Instr}, (∀ i ∈ is, Survives i) →
    encodeCode is = .ok (join "," (Tree.itemTexts (codeTrees is)))
  | [], _ => by rw [encodeCode]; rfl
  | [i], h => by
    rw [encodeCode, (h i List.mem_cons_self).written]
    rfl
  | i :: j :: is, h => by
    obtain ⟨hi, his⟩ := List.forall_mem_cons.1 h
    rw [encodeCode, hi.written, encodeCode_of_survives his]
    · rfl
    · exact nofun

theorem exists_draftItems_of_survives : ∀ {is : List Instr}, (∀ i ∈ is, Survives i) → ∀ {ds : List Doc},
    ShowsItems ds (codeTrees is) →
      ∃ drs, draftItems [] ds = .ok drs ∧ ∀ path k, instrsOf path k drs.items = .ok is
  | [], _, ds, h => by
    rw [codeTrees] at h
    cases h
    exact ⟨.nil, by rw [draftItems]; rfl, fun path k => by rw [Slice.nil, instrsOf]⟩
  | i :: is, hs, ds, h => by
    obtain ⟨hi, his⟩ := List.forall_mem_cons.1 hs
    rw [codeTrees] at h
    cases h with
    | cons hd hds =>
      obtain ⟨dr, hdr, hinstr⟩ := hi.recovered _ hd
      obtain ⟨drs, hdrs, hinstrs⟩ := exists_draftItems_of_survives his hds
      refine ⟨⟨dr :: drs.items, drs.behind⟩, ?_, fun path k => ?_⟩
      · rw [draftItems, List.headD_nil, hdr, List.tail_nil, hdrs]
        rfl
      · rw [instrsOf, hinstr, hinstrs]
        rfl

theorem exists_draftList_of_survives {is : List Instr} (hs : ∀ i ∈ is, Survives i) {d : Doc}
    (h : Shows d (.list (codeTrees is))) :
    ∃ drs, draftList .nil d = .ok drs ∧ ∀ path k, instrsOf path k drs.items = .ok is := by
  cases h with
  | @list _ ds _ hds =>
    obtain ⟨drs, hdrs, hinstrs⟩ := exists_draftItems_of_survives hs hds
    refine ⟨drs, ?_, hinstrs⟩
    cases ds with
    | nil =>
      rw [draftItems] at hdrs
      rw [draftList, ← hdrs]
      rfl
    | cons d ds =>
      rw [draftList, ← hdrs]
      · rfl
      · exact nofun

/-- The text of a conditional. -/
theorem text_branch (yes no : List Tree) :
    (operation "if" [field "then" (.list yes), field "else" (.list no)]).text =
      ofString "\x7b\"op\":\"if\",\"then\":[" ++ join "," (Tree.itemTexts yes) ++ ofString "],\"else\":[" ++
        join "," (Tree.itemTexts no) ++ ofString "]\x7d" := by
  rw [show ofString "\x7b\"op\":\"if\",\"then\":[" = byte '\x7b' :: quote "op".toList ++ byte ':' ::
      quote "if".toList ++ byte ',' :: quote "then".toList ++ [byte ':', byte '['] by decide,
    show ofString "],\"else\":[" = byte ']' :: byte ',' :: quote "else".toList ++ [byte ':', byte '['] by decide,
    show ofString "]\x7d" = [byte ']', byte '\x7d'] by decide]
  simp only [operation, field, Tree.text, Tree.memberTexts, join_cons, afterCommas, List.flatMap_cons,
    List.flatMap_nil, List.append_assoc, List.cons_append, List.nil_append, List.append_nil]

theorem survives_branch {yes no : List Instr} (hy : ∀ i ∈ yes, Survives i) (hn : ∀ i ∈ no, Survives i) :
    Survives (.branch yes no) where
  written := by
    rw [encodeInstr, encodeCode_of_survives hy, encodeCode_of_survives hn, instrTree, text_branch]
    rfl
  recovered d h := by
    rw [instrTree] at h
    obtain ⟨ms, hms, hdraft⟩ := exists_draft_operation h
    unfold field at hms
    cases hms with
    | cons _ hyes hms =>
      cases hms with
      | cons _ hno hms =>
        cases hms
        obtain ⟨ys, hys, hyes⟩ := exists_draftList_of_survives hy hyes
        obtain ⟨ns, hns, hno⟩ := exists_draftList_of_survives hn hno
        rw [draftMembers_then hys, draftMembers_else hns, draftMembers] at hdraft
        refine ⟨_, hdraft, fun path => ?_⟩
        rw [instrOf, if_neg (by decide), if_neg (by decide), if_pos (by decide), hyes, hno]
        rfl

mutual

/-- Valid code is written, and read back. -/
theorem survives_of_depthAfter {locals : UInt32} : ∀ {i : Instr} {pc d d' : Nat},
    depthAfter locals pc d i = .ok d' → Survives i
  | .const n, _, _, _, _ => survives_const n
  | .select, _, _, _, _ => survives_select
  | .branch yes no, _, _, _, h => by
    obtain ⟨-, hy, hn, -⟩ := depthAfter_branch_eq_ok.1 h
    exact survives_branch (survives_of_depthFrom hy) (survives_of_depthFrom hn)
  | .localGet i, _, _, _, _ => survives_get i
  | .localSet i, _, _, _, _ => survives_set i
  | .stop, _, _, _, _ => survives_stop
  | .unknown, _, _, _, h => by simp [depthAfter] at h

theorem survives_of_depthFrom {locals : UInt32} : ∀ {is : List Instr} {pc d d' : Nat},
    depthFrom locals pc d is = .ok d' → ∀ i ∈ is, Survives i
  | [], _, _, _, _ => fun _ h => absurd h List.not_mem_nil
  | i :: is, _, _, _, h => by
    obtain ⟨d₁, hi, his⟩ := depthFrom_cons_eq_ok.1 h
    exact List.forall_mem_cons.2 ⟨survives_of_depthAfter hi, survives_of_depthFrom his⟩

end

/-! ## Modules -/

theorem survives_of_validate {m : Module} (hv : m.validate = .ok ()) : ∀ i ∈ m.body, Survives i := by
  obtain ⟨-, is, hbody, hd⟩ := Module.validate_eq_ok.1 hv
  rw [hbody]
  intro i hi
  obtain hi | hi := List.mem_append.1 hi
  · exact survives_of_depthFrom hd i hi
  · rw [List.mem_singleton.1 hi]
    exact survives_stop

/-- A valid module is written, whatever its name is. -/
theorem exists_encode_of_validate [Replacement] {m : Module} (hv : m.validate = .ok ()) :
    ∃ data, encode m = .ok data :=
  ⟨_, bind_eq_ok.2 ⟨_, encodeCode_of_survives (survives_of_validate hv), rfl⟩⟩

/-- In a text that is UTF-8 nothing is replaced. -/
theorem quotedString_of_isUtf8 [Replacement] {t : Text} (h : isUtf8 t = true) :
    quotedString t = quote ((pieces t).map Piece.toChar) := by
  obtain ⟨cs, rfl⟩ := isUtf8_iff.1 h
  rw [quotedString, quote, pieces_ofChars, List.flatMap_map, List.flatMap_map, List.flatMap_map]
  rfl

/-- What is written for a valid module under a name in UTF-8 is the text of its document. -/
theorem encode_of_validate [Replacement] {m : Module} (hv : m.validate = .ok ()) (hname : isUtf8 m.name = true) :
    encode m = .ok (document m).text := by
  have hquoted := quotedString_of_isUtf8 hname
  have hlocals : ofInt m.locals.toNat = Text.ofNat m.locals.toNat := rfl
  refine bind_eq_ok.2 ⟨_, encodeCode_of_survives (survives_of_validate hv), pure_eq_ok.2 ?_⟩
  rw [hquoted, show ofString "\x7b\"export\":" = byte '\x7b' :: quote "export".toList ++ [byte ':'] by decide,
    show ofString ",\"locals\":" = byte ',' :: quote "locals".toList ++ [byte ':'] by decide,
    show ofString ",\"body\":[" = byte ',' :: quote "body".toList ++ [byte ':', byte '['] by decide,
    show ofString "]\x7d" = [byte ']', byte '\x7d'] by decide]
  simp only [document, field, Tree.text, Tree.memberTexts, join_cons, afterCommas, hlocals, List.flatMap_cons,
    List.flatMap_nil, List.append_assoc, List.cons_append, List.nil_append, List.append_nil]

section ModuleFields

variable {m : ModuleDraft} {mark : Nat} {rest : List (Text × Doc)}

theorem moduleMembers_export (cs : List Char) :
    moduleMembers m ((ofChars "export".toList, .string mark (ofChars cs)) :: rest) =
      moduleMembers { m with name := some (ofChars cs) } rest := by
  rw [moduleMembers]
  simp only [sameName_toList]
  rw [if_pos (by decide)]
  rfl

theorem moduleMembers_locals (n : UInt32) :
    moduleMembers m ((ofChars "locals".toList, .number mark (ofInt n.toNat)) :: rest) =
      moduleMembers { m with locals := n } rest := by
  rw [moduleMembers]
  simp only [sameName_toList]
  rw [if_neg (by decide), if_pos (by decide), Json.optional, unsigned_toNat]
  · rfl
  · exact nofun

theorem moduleMembers_body {d : Doc} {drafts : Slice Draft} (h : draftList m.body d = .ok drafts) :
    moduleMembers m ((ofChars "body".toList, d) :: rest) = moduleMembers { m with body := drafts } rest := by
  rw [moduleMembers]
  simp only [sameName_toList]
  rw [if_neg (by decide), if_neg (by decide), if_pos (by decide), h]
  rfl

end ModuleFields

/-- A document that shows that of a module has its fields. -/
theorem exists_moduleDraft {m : Module} (hs : ∀ i ∈ m.body, Survives i) (hname : isUtf8 m.name = true) {d : Doc}
    (h : Shows d (document m)) :
    ∃ drs, moduleDraft d = .ok ⟨some m.name, m.locals, drs⟩ ∧
      ∀ path k, instrsOf path k drs.items = .ok m.body := by
  obtain ⟨cs, hcs⟩ := isUtf8_iff.1 hname
  -- here UTF-8 is needed: what is written of a stray byte is another character
  have hsame : ofChars ((pieces m.name).map Piece.toChar) = m.name := by
    rw [hcs]
    exact sanitize_ofChars cs
  unfold document field at h
  cases h with
  | object mark h =>
    cases h with
    | cons _ hexport h =>
      cases h with
      | cons _ hlocals h =>
        cases h with
        | cons _ hbody h =>
          cases h
          cases hexport
          cases hlocals
          obtain ⟨drs, hdrs, hinstrs⟩ := exists_draftList_of_survives hs hbody
          refine ⟨drs, ?_, hinstrs⟩
          rw [moduleDraft, moduleMembers_export, moduleMembers_locals, moduleMembers_body hdrs, moduleMembers, hsame]

theorem decode_of_shows {m : Module} (hv : m.validate = .ok ()) (hname : isUtf8 m.name = true) {t : Text}
    {d : Doc} {off : Nat} (hread : read t = .ok ⟨d, off, []⟩) (hd : Shows d (document m)) : decode t = .ok m := by
  obtain ⟨drs, hdraft, hinstrs⟩ := exists_moduleDraft (survives_of_validate hv) hname hd
  refine bind_eq_ok.2 ⟨_, mapError_eq_ok.2 hread, bind_eq_ok.2 ⟨_, hdraft, bind_eq_ok.2 ⟨(), rfl, ?_⟩⟩⟩
  refine bind_eq_ok.2 ⟨m.body, hinstrs _ _, ?_⟩
  simp only [hv]
  rfl

/-- The round trip through JSON: every valid module whose name is UTF-8 is written, as the text of its
document, and unless more lists and objects are open in that at once than may be, reading it gives an
equal module. -/
theorem decode_encode_document [Replacement] {m : Module} (hv : m.validate = .ok ()) (hname : isUtf8 m.name = true)
    (hnesting : (document m).nesting ≤ maxDepth) :
    ∃ data, encode m = .ok data ∧ data = (document m).text ∧
      ∃ n, decode data = .ok n ∧ n.same m = true := by
  obtain ⟨d, off, hd, hread⟩ := exists_read_object hnesting
  exact ⟨_, encode_of_validate hv hname, rfl, m, decode_of_shows hv hname hread hd, m.same_refl⟩

/-- A name with a quote, a backslash, markup, a control character, a line separator and characters of
two and four bytes; operands that are zero and extreme; and a conditional in an arm. -/
def escapedModule : Module where
  name := Text.ofChars ['"', '\\', '<', '&', '\n', '\u0001', '\u2028', 'é', '😀']
  locals := 4294967295
  body := [.const (-2147483648), .localSet 4294967294, .const 0,
    .branch [.localGet 0, .branch [.const 2147483647] [.localGet 0]] [.const 0], .stop]

theorem decode_encode_escaped :
    escapedModule.validate = .ok () ∧ isUtf8 escapedModule.name = true ∧
      (document escapedModule).nesting ≤ maxDepth ∧
      ∃ data, @encode ⟨false⟩ escapedModule = .ok data ∧ data = (document escapedModule).text ∧
        ∃ n, decode data = .ok n ∧ n.same escapedModule = true := by
  have hv : escapedModule.validate = .ok () := rfl
  have hname : isUtf8 escapedModule.name = true := isUtf8_iff.2 ⟨_, rfl⟩
  have hnesting : (document escapedModule).nesting ≤ maxDepth := by decide
  exact ⟨hv, hname, hnesting, @decode_encode_document ⟨false⟩ _ hv hname hnesting⟩

end LetIf.Json
