/-
Modules survive the text format. What is written for a valid module spells one tree, with its layout
in blanks only; the tree is one of the grammar, for the function it was written for, and the `stop` that is
left out in writing is put back in reading.
-/
import LetIf.Proofs.Code.Same
import LetIf.Proofs.Code.Validation
import LetIf.Proofs.Wat.Grammar
import LetIf.Proofs.Wat.Layout

namespace LetIf.Wat

open Text Code

attribute [local simp] renderInstr renderCode

/-! ## Numbers -/

theorem i32?_ofInt (n : Int32) : i32? (ofInt n.toInt) = some n := by
  have hle := n.le_toInt
  have hlt := n.toInt_lt
  have hspan : (Bits.span 31 : Int) = 2147483648 := rfl
  rw [i32?, int?_ofInt, Option.bind_eq_bind, Option.bind_some, if_pos (by omega), Int32.ofInt_toInt]

theorem slot?_ofNat (i : UInt32) : slot? (Text.ofNat i.toNat) = some i := by
  have hlt : i.toNat < Bits.span 32 := i.toNat_lt
  rw [slot?, nat?_ofNat, Option.bind_eq_bind, Option.bind_some, if_pos hlt, UInt32.ofNat_toNat]

/-! ## Writing instructions -/

/-- The tree of a head with one atom. -/
def operation (head operand : Text) : Tree := .list [.atom head, .atom operand]

theorem lays_operation {head operand : Text} (hh : isAtom head = true) (ho : isAtom operand = true) :
    Lays (bracketed head (32 :: operand)) [operation head operand] :=
  (lays_atom ho).inBrackets head hh

/-- The line of a head with one operand. -/
theorem line_operation (depth : Nat) (head operand : Text) :
    line depth (bracketed head (32 :: operand)) =
      indent depth ++ (byte '(' :: head ++ [32]) ++ operand ++ ofString ")\n" := by
  simp only [line, bracketed, show ofString ")\n" = [byte ')', 10] by decide, List.append_assoc,
    List.cons_append, List.nil_append]

/-- An arm on lines of its own: its head, its code, and the end of it. -/
theorem Lays.arm {text : Text} {ts : List Tree} (h : Lays text ts) (depth : Nat) (head : Text)
    (hh : isAtom head = true) :
    Lays (line depth (bracketed head (10 :: (text ++ indent depth)))) [.list (.atom head :: ts)] := by
  have hbody := (h.append (lays_indent depth)).blank (b := 10) (by decide)
  rw [List.append_nil] at hbody
  exact (hbody.inBrackets head hh).onLine depth

theorem lays_branch {yes no : Text} {ys ns : List Tree} (hy : Lays yes ys) (hn : Lays no ns)
    (depth : Nat) :
    Lays (indent depth ++ "(if (result i32)\n" ++
        indent (depth + 1) ++ "(then\n" ++ yes ++ indent (depth + 1) ++ ")\n" ++
        indent (depth + 1) ++ "(else\n" ++ no ++ indent (depth + 1) ++ ")\n" ++
        indent depth ++ ")\n")
      [.list [.atom "if", operation "result" "i32", .list (.atom "then" :: ys),
        .list (.atom "else" :: ns)]] := by
  have hresult : Lays (bracketed "result" (32 :: ofString "i32")) [operation "result" "i32"] :=
    lays_operation (by decide) (by decide)
  have hbreak : Lays [10] [] := Lays.nil.blank (by decide)
  have hthen := hy.arm (depth + 1) "then" (by decide)
  have helse := hn.arm (depth + 1) "else" (by decide)
  have hbody := (hresult.append (hbreak.append (hthen.append (helse.append (lays_indent depth))))).blank
    (b := 32) (by decide)
  have hall := (hbody.inBrackets "if" (by decide)).onLine depth
  rw [show ofString "(if (result i32)\n" =
      byte '(' :: ofString "if" ++ 32 :: bracketed "result" (32 :: ofString "i32") ++ [10] by decide,
    show ofString "(then\n" = byte '(' :: ofString "then" ++ [10] by decide,
    show ofString "(else\n" = byte '(' :: ofString "else" ++ [10] by decide,
    show ofString ")\n" = [byte ')', 10] by decide]
  simpa only [line, bracketed, List.append_assoc, List.cons_append, List.nil_append, List.append_nil]
    using hall

mutual

/-- Valid code is written, as code of the grammar. -/
theorem exists_renderInstr {locals : UInt32} : ∀ {i : Instr} {pc d d' : Nat},
    depthAfter locals pc d i = .ok d' → ∀ depth, ∃ text t,
      renderInstr depth i = .ok text ∧ Lays text [t] ∧ IsCode IsQuotable [t] [i]
  | .const n, _, _, _, _, depth => by
    refine ⟨_, _, ?_, (lays_operation (by decide) (isAtom_ofInt n.toInt)).onLine depth,
      .const (.inl rfl) (i32?_ofInt n) .nil⟩
    simp only [renderInstr, line_operation]
    rfl
  | .select, _, _, _, _, depth => by
    have hl := (Lays.nil.inBrackets "select" (by decide)).onLine depth
    refine ⟨_, _, ?_, hl, .select .nil⟩
    simp only [renderInstr, line, List.append_assoc]
    rfl
  | .branch yes no, _, _, _, h, depth => by
    obtain ⟨-, hy, hn, -⟩ := depthAfter_branch_eq_ok.1 h
    obtain ⟨ty, ys, hry, hly, hcy⟩ := exists_renderCode hy (depth + 2)
    obtain ⟨tn, ns, hrn, hln, hcn⟩ := exists_renderCode hn (depth + 2)
    refine ⟨_, _, ?_, lays_branch hly hln depth, .branch (.inl rfl) hcy hcn .nil⟩
    simp only [renderInstr, hry, hrn]
    rfl
  | .localGet i, _, _, _, _, depth => by
    refine ⟨_, _, ?_, (lays_operation (by decide) (isAtom_ofNat i.toNat)).onLine depth,
      .localGet (.inl rfl) (slot?_ofNat i) .nil⟩
    simp only [renderInstr, line_operation]
    rfl
  | .localSet i, _, _, _, _, depth => by
    refine ⟨_, _, ?_, (lays_operation (by decide) (isAtom_ofNat i.toNat)).onLine depth,
      .localSet (.inl rfl) (slot?_ofNat i) .nil⟩
    simp only [renderInstr, line_operation]
    rfl
  | .stop, _, _, _, h, _ => by simp [depthAfter] at h
  | .unknown, _, _, _, h, _ => by simp [depthAfter] at h

theorem exists_renderCode {locals : UInt32} : ∀ {is : List Instr} {pc d d' : Nat},
    depthFrom locals pc d is = .ok d' → ∀ depth, ∃ text ts,
      renderCode depth is = .ok text ∧ Lays text ts ∧ IsCode IsQuotable ts is
  | [], _, _, _, _, depth => ⟨[], [], by simp, .nil, .nil⟩
  | i :: is, _, _, _, h, depth => by
    obtain ⟨d₁, hi, his⟩ := depthFrom_cons_eq_ok.1 h
    obtain ⟨text, t, hr, hl, hc⟩ := exists_renderInstr hi depth
    obtain ⟨text', ts, hr', hl', hc'⟩ := exists_renderCode his depth
    refine ⟨text ++ text', t :: ts, ?_, hl.append hl', hc.append hc'⟩
    simp only [renderCode, hr, hr']
    rfl

end

theorem renderCode_stop {depth : Nat} : ∀ {is : List Instr} {text : Text},
    renderCode depth is = .ok text → renderCode depth (is ++ [.stop]) = .ok text
  | [], text, h => by
    simp only [renderCode, Except.ok.injEq] at h
    subst h
    simp
    rfl
  | i :: is, text, h => by
    rw [renderCode] at h
    obtain ⟨t, hi, h⟩ := bind_eq_ok.1 h
    obtain ⟨u, his, h⟩ := bind_eq_ok.1 h
    rw [List.cons_append, renderCode]
    exact bind_eq_ok.2 ⟨t, hi, bind_eq_ok.2 ⟨u, renderCode_stop his, h⟩⟩

/-! ## Functions -/

/-- The identifier of a function, if its name is one. -/
def idTrees (name : Text) : List Tree := if isId name then [.atom (byte '$' :: name)] else []

/-- The declaration of the locals, if there are any. -/
def localTrees (n : UInt32) : List Tree :=
  if n = 0 then [] else [.list (.atom "local" :: List.replicate n.toNat (.atom "i32"))]

/-- The tree of a function with the given code. -/
def funcTree (name : Text) (locals : UInt32) (code : List Tree) : Tree :=
  .list (.atom "func" :: (idTrees name ++ .list [.atom "export", .string name] ::
    operation "result" "i32" :: (localTrees locals ++ code)))

theorem lays_id (name : Text) : Lays (32 :: renderId name) (idTrees name) := by
  unfold renderId idTrees
  split
  · rename_i h
    rw [isId, Bool.and_eq_true] at h
    have hall : (byte '$' :: name).all isIdByte = true := by
      rw [List.all_cons, Bool.and_eq_true]
      exact ⟨by decide, h.2⟩
    have hend : Lays [32] [] := Lays.nil.blank (by decide)
    exact (lays_atom (isAtom_of_all (List.cons_ne_nil _ _) hall)).append hend
  · exact Lays.nil.blank (by decide)

theorem lays_replicate : ∀ n : Nat,
    Lays (List.replicate n (ofString " i32")).flatten (List.replicate n (.atom "i32"))
  | 0 => .nil
  | n + 1 => by
    have h : Lays (32 :: ofString "i32") [.atom "i32"] := lays_atom (by decide)
    exact h.append (lays_replicate n)

theorem lays_locals (n : UInt32) : Lays (renderLocals n) (localTrees n) := by
  unfold renderLocals localTrees
  split
  · exact .nil
  · have h := ((lays_replicate n.toNat).inBrackets "local" (by decide)).onLine 2
    rw [show ofString "(local" = byte '(' :: ofString "local" by decide,
      show ofString ")\n" = [byte ')', 10] by decide]
    simpa only [line, bracketed, List.append_assoc, List.cons_append, List.nil_append] using h

theorem lays_func {body : Text} {ts : List Tree} (name : Text) (locals : UInt32) (hbody : Lays body ts) :
    Lays (indent 1 ++ "(func " ++ renderId name ++ "(export " ++ quotedBytes name ++
      ") (result i32)\n" ++ renderLocals locals ++ body ++ indent 1 ++ ")\n")
      [funcTree name locals ts] := by
  have hexport := ((lays_string name).blank (b := 32) (by decide)).inBrackets "export" (by decide)
  have hresult : Lays (bracketed "result" (32 :: ofString "i32")) [operation "result" "i32"] :=
    lays_operation (by decide) (by decide)
  have hcode := ((lays_locals locals).append (hbody.append (lays_indent 1))).blank (b := 10) (by decide)
  have hinner := (lays_id name).append
    (hexport.append ((hresult.blank (b := 32) (by decide)).append hcode))
  have hall := (hinner.inBrackets "func" (by decide)).onLine 1
  rw [show ofString "(func " = byte '(' :: ofString "func" ++ [32] by decide,
    show ofString "(export " = byte '(' :: ofString "export" ++ [32] by decide,
    show ofString ") (result i32)\n" =
      byte ')' :: 32 :: bracketed "result" (32 :: ofString "i32") ++ [10] by decide,
    show ofString ")\n" = [byte ')', 10] by decide]
  unfold funcTree
  simpa only [line, bracketed, List.append_assoc, List.cons_append, List.nil_append, List.append_nil]
    using hall

/-! ## Functions of the grammar -/

theorem isId_idTrees (name : Text) : IsId (idTrees name) := by
  unfold idTrees
  split
  · rename_i hid
    -- a dollar alone would not be an identifier, but no name is empty
    have hlong : 1 < (byte '$' :: name).length := by
      cases name with
      | nil => cases hid
      | cons _ _ => simp
    exact .some hlong rfl
  · exact .none

theorem isLocals_localTrees (n : UInt32) : IsLocals IsQuotable (localTrees n) n.toNat := by
  unfold localTrees
  split
  · rename_i hn
    rw [hn]
    exact .nil
  · have hwords : ∀ w ∈ List.replicate n.toNat (Tree.atom "i32"), IsQuotable "i32" w := by
      intro w hw
      exact .inl (List.eq_of_mem_replicate hw)
    have h := IsLocals.cons hwords .nil
    rw [List.length_replicate] at h
    exact h

theorem isFunc_funcTree {ts : List Tree} {is : List Instr} (name : Text) (locals : UInt32)
    (h : IsCode IsQuotable ts is) : IsFunc IsQuotable (funcTree name locals ts) ⟨name, locals, is ++ [.stop]⟩ := by
  have hf : IsFunc IsQuotable (funcTree name locals ts) ⟨name, UInt32.ofNat locals.toNat, is ++ [.stop]⟩ :=
    .mk (isId_idTrees name) (.inl rfl) (isLocals_localTrees locals) h
  rwa [UInt32.ofNat_toNat] at hf

/-! ## Modules -/

/-- The text of a module spells the tree of its function inside that of the module. -/
theorem render_of_validate {m : Module} (hv : m.validate = .ok ()) :
    ∃ text ts is, render m = .ok text ∧ m.body = is ++ [.stop] ∧ IsCode IsQuotable ts is ∧
      Lexes text (Tree.list [.atom "module", funcTree m.name m.locals ts]).forms := by
  obtain ⟨-, is, hbody, hd⟩ := Module.validate_eq_ok.1 hv
  obtain ⟨text, ts, hr, hl, hm⟩ := exists_renderCode hd 2
  refine ⟨_, ts, is, bind_eq_ok.2 ⟨text, by rw [hbody]; exact renderCode_stop hr, rfl⟩, hbody, hm, ?_⟩
  have hend : Lays [10] [] := Lays.nil.blank (by decide)
  have hfunc := (lays_func m.name m.locals hl).blank (b := 10) (by decide)
  have hall := ((hfunc.inBrackets "module" (by decide)).append hend).spells.lexes
  rw [show ofString "(module\n" = byte '(' :: ofString "module" ++ [10] by decide,
    show ofString ")\n)\n" = ofString ")\n" ++ [byte ')', 10] by decide]
  simpa only [Tree.formsAll, bracketed, List.append_assoc, List.cons_append, List.nil_append,
    List.append_nil] using hall

theorem parse_of_forms {text : Text} {m : Module} {ts : List Tree} {is : List Instr}
    (h : Lexes text (Tree.list [.atom "module", funcTree m.name m.locals ts]).forms)
    (hbody : m.body = is ++ [.stop]) (hts : IsCode IsQuotable ts is) (hv : m.validate = .ok ()) :
    parse text = .ok m := by
  obtain ⟨toks, last, htoks, hforms⟩ := h 0
  have hspelled : Spelled text (.list [.atom "module", funcTree m.name m.locals ts]) := by
    rw [Spelled, tokens, htoks]
    exact ⟨last, rfl, hforms⟩
  have hf := isFunc_funcTree m.name m.locals hts
  rw [← hbody] at hf
  exact parse_eq_ok.2 ⟨_, hspelled, .mk hf, hv⟩

/-- The round trip through the text format: every valid module is written, whatever the bytes of its
name, and reading that gives an equal module. -/
theorem parse_render_same {m : Module} (hv : m.validate = .ok ()) :
    ∃ text, render m = .ok text ∧ ∃ n, parse text = .ok n ∧ n.same m = true := by
  obtain ⟨text, ts, is, hr, hbody, hts, hl⟩ := render_of_validate hv
  exact ⟨text, hr, m, parse_of_forms hl hbody hts hv, m.same_refl⟩

/-- A name of a quote, a backslash, two semicolons, parentheses, a line break and a stray byte, and
a branch in an arm. -/
def awkwardModule : Module where
  name := [34, 92, 59, 59, 40, 41, 10, 255]
  locals := 2
  body := [.const (-2147483648), .localSet 1, .const 1,
    .branch [.localGet 1, .branch [.const 0] [.localGet 0]] [.const 2147483647], .stop]

theorem parse_render_awkward : awkwardModule.validate = .ok () ∧
    ∃ text, render awkwardModule = .ok text ∧
      ∃ n, parse text = .ok n ∧ n.same awkwardModule = true := by
  have hv : awkwardModule.validate = .ok () := rfl
  exact ⟨hv, parse_render_same hv⟩

end LetIf.Wat
