/-
  LoxSyntax.Proofs.SerializedTrees — nothing of a tree is lost in its data.

  Values of JSON are alike if a program that reads them cannot tell them apart: kinds and
  values agree, doubles have one text, and objects have the same keys with alike values, in
  any order. The text of a double determines it, so alike values stand for the same; and
  the data of a node stands for that node. An object that stands for a token is all there
  is of a token in the data, so the tokens in there are those of the tree.

  - `Binary64.text_injective`: the text of a double determines it.
  - `Json.Alike.datum?_eq`: alike values stand for the same.
  - `Node.tokens_data`: the tokens in the data of a node.
  - `Node.alike_iff`, `Stmt.alike_iff`: nodes with alike data are one node.
  - `serialized_tree`: a node, its data, and the nodes with alike data.
-/

import LoxSyntax.Proofs.Printing.Spelling
import LoxSyntax.Proofs.Tree.Decoding

namespace LoxSyntax

/-! ## Texts of doubles -/

namespace JsonText

/-- There is no letter of a name in a numeral. -/
theorem Numeral.not_mem_text (n : Numeral) : 'n' ∉ n.text := by
  intro h
  have htext : n.text = Binary64.signText n.negative ++ { n with negative := false }.text := rfl
  rw [htext, List.mem_append] at h
  rcases h with h | h
  · cases hn : n.negative <;> rw [hn] at h <;> exact absurd h (by decide)
  · exact absurd (Numeral.inNumeral_of_mem rfl _ h) (by decide)

end JsonText

open JsonText

namespace Binary64

theorem mem_chars_iff (x : Binary64) : 'n' ∈ x.chars ↔ ∀ negative rank, x ≠ .finite negative rank := by
  cases x with
  | finite negative rank =>
    obtain ⟨n, htext, -⟩ := exists_numeral_finite negative rank
    exact iff_of_false (htext ▸ n.not_mem_text) fun h => h negative rank rfl
  | infinite negative => exact iff_of_true (by cases negative <;> decide) fun _ _ h => nomatch h
  | nan => exact iff_of_true (by decide) fun _ _ h => nomatch h

theorem eq_of_chars_finite {negative negative' : Bool} {rank rank' : Fin magnitudes}
    (h : (Binary64.finite negative rank).chars = (Binary64.finite negative' rank').chars) :
    Binary64.finite negative rank = .finite negative' rank' := by
  obtain ⟨n, htext, hvalue⟩ := exists_numeral_finite negative rank
  obtain ⟨n', htext', hvalue'⟩ := exists_numeral_finite negative' rank'
  have hends : Ends [] := fun c hc => nomatch hc
  have hsame : n.text ++ [] = n'.text ++ [] := by rw [htext, htext', h]
  obtain ⟨rfl, -⟩ := Numeral.unique hsame hends hends
  exact Json.number.inj (hvalue.symm.trans hvalue')

/-- The text of a double determines it. -/
theorem text_injective : Function.Injective text := by
  intro x y h
  have hchars : x.chars = y.chars := by simpa [text] using congrArg String.toList h
  have hfinite := (mem_chars_iff x).symm.trans (hchars ▸ mem_chars_iff y)
  cases x with
  | finite negative rank =>
    cases y with
    | finite negative' rank' => exact eq_of_chars_finite hchars
    | _ => exact absurd rfl (hfinite.2 (fun _ _ h => nomatch h) negative rank)
  | infinite negative =>
    cases y with
    | finite negative' rank' => exact absurd rfl (hfinite.1 (fun _ _ h => nomatch h) negative' rank')
    | infinite negative' => cases negative <;> cases negative' <;> first | rfl | cases hchars
    | nan => cases negative <;> cases hchars
  | nan =>
    cases y with
    | finite negative' rank' => exact absurd rfl (hfinite.1 (fun _ _ h => nomatch h) negative' rank')
    | infinite negative' => cases negative' <;> cases hchars
    | nan => rfl

end Binary64

/-! ## Values that are alike -/

/-- Values of JSON that cannot be told apart: doubles by their text, objects by their keys. -/
inductive Json.Alike : Json → Json → Prop where
  | null : Alike .null .null
  | boolean (b : Bool) : Alike (.boolean b) (.boolean b)
  | integer (n : Int) : Alike (.integer n) (.integer n)
  | number {x y : Binary64} (h : x.text = y.text) : Alike (.number x) (.number y)
  | text (s : String) : Alike (.text s) (.text s)
  | array {js ks : List Json} (hlength : js.length = ks.length)
      (h : ∀ (i : Nat) (hj : i < js.length) (hk : i < ks.length), Alike js[i] ks[i]) : Alike (.array js) (.array ks)
  | object {ms ns : List (String × Json)} (hkeys : ∀ key, (ms.lookup key).isSome = (ns.lookup key).isSome)
      (h : ∀ key j k, ms.lookup key = some j → ns.lookup key = some k → Alike j k) : Alike (.object ms) (.object ns)

theorem itemData_eq_map (js : List Json) : itemData js = js.map Json.datum? := by
  induction js with
  | nil => rfl
  | cons j js ih => rw [itemData, ih, List.map_cons]

theorem lookup_memberData (key : String) (ms : List (String × Json)) :
    (memberData ms).lookup key = (ms.lookup key).map Json.datum? := by
  induction ms with
  | nil => rfl
  | cons m ms ih =>
    obtain ⟨key', j⟩ := m
    rw [memberData, List.lookup_cons, List.lookup_cons, ih]
    split <;> rfl

theorem datum?_eq_of_lookup {ms ns : List (String × Json)}
    (h : ∀ key, (ms.lookup key).map Json.datum? = (ns.lookup key).map Json.datum?) :
    (Json.object ms).datum? = (Json.object ns).datum? := by
  have hfields : (fun key => ((memberData ms).lookup key).join) = fun key => ((memberData ns).lookup key).join :=
    funext fun key => by rw [lookup_memberData, lookup_memberData, h]
  rw [Json.datum?, Json.datum?, hfields]

/-- Alike values stand for the same. -/
theorem Json.Alike.datum?_eq {j k : Json} (h : j.Alike k) : j.datum? = k.datum? := by
  induction h with
  | null | boolean | integer | text => rfl
  | number h => rw [Binary64.text_injective h]
  | array hlength _ ih =>
    rw [Json.datum?, Json.datum?, itemData_eq_map, itemData_eq_map]
    congr 2
    refine List.ext_getElem (by simpa using hlength) fun i hj hk => ?_
    rw [List.getElem_map, List.getElem_map]
    exact ih i (by simpa using hj) (by simpa using hk)
  | @object ms ns hkeys _ ih =>
    refine datum?_eq_of_lookup fun key => ?_
    have hkey := hkeys key
    cases hm : ms.lookup key with
    | none =>
      rw [hm, Option.isSome_none, eq_comm, Option.isSome_eq_false_iff, Option.isNone_iff_eq_none] at hkey
      rw [hkey]
    | some j =>
      rw [hm, Option.isSome_some, eq_comm, Option.isSome_iff_exists] at hkey
      obtain ⟨k, hk⟩ := hkey
      rw [hk]
      exact congrArg some (ih key j k hm hk)

mutual

theorem Json.alike_refl : ∀ j : Json, j.Alike j
  | .null => .null
  | .boolean b => .boolean b
  | .integer n => .integer n
  | .number _ => .number rfl
  | .text s => .text s
  | .array js => .array rfl fun _ hj _ => alike_items js _ (List.getElem_mem hj)
  | .object ms => .object (fun _ => rfl) fun key j k hj hk => by
    obtain rfl : j = k := Option.some.inj (hj.symm.trans hk)
    obtain ⟨before, after, hms, -⟩ := List.lookup_eq_some_iff.1 hj
    exact alike_members ms (key, j) (by rw [hms]; simp)

theorem alike_items : ∀ js : List Json, ∀ j ∈ js, j.Alike j
  | [], _, h => nomatch h
  | j :: js, k, h => by
    rcases List.mem_cons.1 h with he | h
    · rw [he]
      exact Json.alike_refl j
    · exact alike_items js k h

theorem alike_members : ∀ ms : List (String × Json), ∀ m ∈ ms, m.2.Alike m.2
  | [], _, h => nomatch h
  | (_, j) :: ms, m, h => by
    rcases List.mem_cons.1 h with he | h
    · rw [he]
      exact Json.alike_refl j
    · exact alike_members ms m h

end

/-! ## Tokens -/

/-- The token that a value of JSON stands for. -/
def Json.asToken? (j : Json) : Option Token := j.datum?.bind Datum.token?

mutual

/-- The tokens in a value of JSON, in order. -/
def Json.tokens : Json → List Token
  | .array js => itemTokens js
  | .object ms => match (Json.object ms).asToken? with
    | some t => [t]
    | none => memberTokens ms
  | _ => []

def itemTokens : List Json → List Token
  | [] => []
  | j :: js => j.tokens ++ itemTokens js

def memberTokens : List (String × Json) → List Token
  | [] => []
  | (_, j) :: ms => j.tokens ++ memberTokens ms

end

namespace Node

mutual

/-- The tokens in a node, in the order of the fields. -/
def tokens : Node → List Token
  | .literal _ | .stray (.value _) => []
  | .ident t | .this t | .stray (.token t) => [t]
  | .super keyword method => [keyword, method]
  | .grouping e | .expression e | .print e => e.tokens
  | .unary t e | .assign t e | .var t e | .return t e => t :: e.tokens
  | .get e t => e.tokens ++ [t]
  | .binary a t b | .logical a t b | .set a t b => a.tokens ++ t :: b.tokens
  | .while a b => a.tokens ++ b.tokens
  | .if a b c => a.tokens ++ (b.tokens ++ c.tokens)
  | .call f t as => f.tokens ++ t :: tokensAll as
  | .block as => tokensAll as
  | .function t ps as => t :: (ps ++ tokensAll as)
  | .class t s as => t :: (s.tokens ++ tokensAll as)

def tokensAll : List Node → List Token
  | [] => []
  | n :: ns => n.tokens ++ tokensAll ns

end

end Node

theorem Literal.tokens_data (v : Literal) : v.data.tokens = [] := by cases v <;> rfl

theorem Token.tokens_data (t : Token) : t.data.tokens = [t] := by
  have h : t.data.asToken? = some t := by rw [Json.asToken?, t.datum?_data]; rfl
  rw [Token.data] at h ⊢
  rw [Json.tokens, h]

theorem itemTokens_tokens (ts : List Token) : itemTokens (ts.map Token.data) = ts := by
  induction ts with
  | nil => rfl
  | cons t ts ih => rw [List.map_cons, itemTokens, t.tokens_data, ih]; rfl

/-- The tokens of a node are those of its fields. -/
theorem tokens_fields {n : Node} (hn : n.isStray = false) {kind : String} {fields : List (String × Json)}
    (h : n.data = Node.object kind fields) : n.data.tokens = memberTokens fields := by
  have ht : n.data.asToken? = none := by
    rw [Json.asToken?, n.datum?_data]
    cases n <;> first | rfl | cases hn
  rw [h, Node.object] at ht ⊢
  rw [Json.tokens, ht]
  rfl

section

attribute [local simp] Node.tokens memberTokens Json.tokens Literal.tokens_data Token.tokens_data itemTokens_tokens

mutual

/-- The tokens in the data of a node are those of the node. -/
theorem Node.tokens_data : ∀ n : Node, n.data.tokens = n.tokens
  | .stray (.value v) => v.tokens_data
  | .stray (.token t) => t.tokens_data
  | .literal _ | .ident _ | .this _ | .super _ _ => (tokens_fields rfl rfl).trans (by simp)
  | .grouping e | .expression e | .print e => (tokens_fields rfl rfl).trans (by simp [e.tokens_data])
  | .unary _ e | .assign _ e | .var _ e | .return _ e | .get e _ =>
    (tokens_fields rfl rfl).trans (by simp [e.tokens_data])
  | .binary a _ b | .logical a _ b | .set a _ b | .while a b =>
    (tokens_fields rfl rfl).trans (by simp [a.tokens_data, b.tokens_data])
  | .if a b c => (tokens_fields rfl rfl).trans (by simp [a.tokens_data, b.tokens_data, c.tokens_data])
  | .call f _ as => (tokens_fields rfl rfl).trans (by simp [f.tokens_data, itemTokens_dataAll as])
  | .block as | .function _ _ as => (tokens_fields rfl rfl).trans (by simp [itemTokens_dataAll as])
  | .class _ s as => (tokens_fields rfl rfl).trans (by simp [s.tokens_data, itemTokens_dataAll as])

theorem itemTokens_dataAll : ∀ ns : List Node, itemTokens (Node.dataAll ns) = Node.tokensAll ns
  | [] => rfl
  | n :: ns => by rw [Node.dataAll, itemTokens, n.tokens_data, itemTokens_dataAll ns]; rfl

end

end

/-! ## Serialized trees -/

/-- Nodes have alike data only if they are one. -/
theorem Node.alike_iff (n m : Node) : n.data.Alike m.data ↔ n = m := by
  constructor
  · intro h
    have hdatum := h.datum?_eq
    rw [n.datum?_data, m.datum?_data] at hdatum
    exact Datum.node.inj (Option.some.inj hdatum)
  · rintro rfl
    exact Json.alike_refl _

/-- So have the statements that the parser gives. -/
theorem Stmt.alike_iff (s s' : Stmt) : s.data.Alike s'.data ↔ s = s' :=
  (s.toNode.alike_iff s'.toNode).trans
    ⟨fun h => Stmt.data_injective (congrArg Node.data h), fun h => congrArg Stmt.toNode h⟩

/-- A node has data that stands for it, with the tokens of the node and no others in it, and
    no other node has data that is alike. -/
theorem serialized_tree (n : Node) (h : n.isStray = false) :
    ∃ j, n.data? = .ok j ∧ j.node? = some n ∧ j.tokens = n.tokens ∧
      ∀ m k, m.data? = .ok k → (j.Alike k ↔ n = m) := by
  refine ⟨n.data, Node.data?_of_not_stray h, Node.node?_data h, n.tokens_data, fun m k hk => ?_⟩
  have hm : m.isStray = false := by
    cases m with
    | stray s => cases hk
    | _ => rfl
  rw [Node.data?_of_not_stray hm] at hk
  obtain rfl := Except.ok.inj hk
  exact n.alike_iff m

theorem serialized_tree_class :
    let a : Token := ⟨.identifier, "A", .nil, 1, 7⟩
    let b : Token := ⟨.identifier, "B", .nil, 1, 11⟩
    let f : Token := ⟨.identifier, "f", .number .nan, -2, 0⟩
    let one : Token := ⟨.number, "1", .number .one, 1, 20⟩
    let n : Node := .class a (.ident b) [.function f [a, b] [.return one .absent, .literal (.boolean true)]]
    n.isStray = false ∧ ∃ j, n.data? = .ok j ∧ j.node? = some n ∧ j.tokens = [a, b, f, a, b, one] := by
  intro a b f one n
  obtain ⟨j, hj, hnode, htokens, -⟩ := serialized_tree n rfl
  exact ⟨rfl, j, hj, hnode, htokens⟩

end LoxSyntax
