import Mathlib.Data.List.TakeDrop

/-!
# A fragment of XML

Documents of elements, attributes and comments, their indented text, and a parser that reads
the text back. Attribute values are escaped, so any string can be one.
-/

namespace Markup

/-- A node of a document. -/
inductive Node
  | element (name : String) (attributes : List (String × String)) (children : List Node)
  | comment (text : String)
  | text (value : String)

/-! ## Escaping -/

/-- A character in the value of an attribute. -/
def escapeChar (c : Char) : List Char :=
  if c = '&' then ['&', 'a', 'm', 'p', ';']
  else if c = '<' then ['&', 'l', 't', ';']
  else if c = '>' then ['&', 'g', 't', ';']
  else if c = '"' then ['&', 'q', 'u', 'o', 't', ';']
  else if c = '\'' then ['&', 'a', 'p', 'o', 's', ';']
  else [c]

/-- A text in the value of an attribute. -/
def escape (s : List Char) : List Char := s.flatMap escapeChar

/-- The text that an escaped text stands for. -/
def unescape : List Char → List Char
  | '&' :: 'a' :: 'm' :: 'p' :: ';' :: cs => '&' :: unescape cs
  | '&' :: 'l' :: 't' :: ';' :: cs => '<' :: unescape cs
  | '&' :: 'g' :: 't' :: ';' :: cs => '>' :: unescape cs
  | '&' :: 'q' :: 'u' :: 'o' :: 't' :: ';' :: cs => '"' :: unescape cs
  | '&' :: 'a' :: 'p' :: 'o' :: 's' :: ';' :: cs => '\'' :: unescape cs
  | c :: cs => c :: unescape cs
  | [] => []

variable {c : Char}

theorem unescape_cons (h : c ≠ '&') (cs : List Char) :
    unescape (c :: cs) = c :: unescape cs := by
  rw [unescape] <;> simp_all

/-- An escaped character is read back. -/
theorem unescape_escapeChar (c : Char) (cs : List Char) :
    unescape (escapeChar c ++ cs) = c :: unescape cs := by
  unfold escapeChar
  split_ifs with hamp hlt hgt hquot hapos
  · rw [hamp]
    rfl
  · rw [hlt]
    rfl
  · rw [hgt]
    rfl
  · rw [hquot]
    rfl
  · rw [hapos]
    rfl
  · exact unescape_cons hamp cs

@[simp] theorem unescape_escape (s : List Char) : unescape (escape s) = s := by
  induction s with
  | nil => rfl
  | cons c s ih =>
    rw [escape, List.flatMap_cons, unescape_escapeChar]
    exact congrArg (c :: ·) ih

/-- An escaped text does not end its attribute. -/
theorem quote_notMem_escape (s : List Char) : '"' ∉ escape s := by
  rw [escape, List.mem_flatMap]
  rintro ⟨c, -, hc⟩
  unfold escapeChar at hc
  split_ifs at hc with h₁ h₂ h₃ hquote
  all_goals simp at hc
  exact hquote hc.symm

/-! ## Rendering -/

/-- Two spaces for each level. -/
def pad (depth : ℕ) : List Char := List.replicate (2 * depth) ' '

/-- An attribute with the space before it. -/
def renderAttribute (a : String × String) : List Char :=
  ' ' :: a.1.toList ++ '=' :: '"' :: escape a.2.toList ++ ['"']

/-- The start of a tag. -/
def opening (depth : ℕ) (name : String) (attributes : List (String × String)) : List Char :=
  pad depth ++ '<' :: name.toList ++ attributes.flatMap renderAttribute

/-- The closing tag on its line. -/
def closing (depth : ℕ) (name : String) : List Char :=
  pad depth ++ '<' :: '/' :: name.toList ++ ['>', '\n']

mutual

/-- The text of a node, two blanks a level and a line for each tag. -/
def Node.render : Node → ℕ → List Char
  | .element name attributes [], depth => opening depth name attributes ++ ['/', '>', '\n']
  | .element name attributes (child :: children), depth =>
    opening depth name attributes ++ ['>', '\n'] ++ child.render (depth + 1) ++
      renderAll children (depth + 1) ++ closing depth name
  | .comment text, depth => pad depth ++ ['<', '!', '-', '-'] ++ text.toList ++
      ['-', '-', '>', '\n']
  | .text value, depth => pad depth ++ escape value.toList ++ ['\n']

/-- A list of nodes, one after the other. -/
def renderAll : List Node → ℕ → List Char
  | [], _ => []
  | n :: ns, depth => n.render depth ++ renderAll ns depth

end

/-! ## Parsing -/

/-- The white space of XML. -/
def isSpace (c : Char) : Bool := c = ' ' || c = '\n' || c = '\t' || c = '\r'

/-- The rest after white space. -/
def skip (cs : List Char) : List Char := cs.dropWhile isSpace

/-- The characters that a name is read with. -/
def isNameChar (c : Char) : Bool := c.isAlphanum || c = '_' || c = '-' || c = '.' || c = ':'

/-- A name that is not empty, and the rest. -/
def parseName (cs : List Char) : Option (String × List Char) :=
  let (name, rest) := cs.span isNameChar
  if name = [] then none else some (String.ofList name, rest)

/-- The value of an attribute. -/
def parseValue : List Char → Option (String × List Char)
  | '=' :: '"' :: cs =>
    let (value, rest) := cs.span (· ≠ '"')
    if rest = [] then none else some (String.ofList (unescape value), rest.tail)
  | _ => none

/-- The attributes up to the end of the tag. -/
def parseAttributes : ℕ → List Char → Option (List (String × String) × List Char)
  | 0, _ => none
  | fuel + 1, cs =>
    if (skip cs).head? = some '>' ∨ (skip cs).head? = some '/' then some ([], skip cs)
    else do
      let (name, rest) ← parseName (skip cs)
      let (value, rest) ← parseValue rest
      let (attributes, rest) ← parseAttributes fuel rest
      some ((name, value) :: attributes, rest)

/-- The text up to the end of a comment, and the rest. -/
def parseComment : List Char → Option (List Char × List Char)
  | '-' :: '-' :: '>' :: rest => some ([], rest)
  | c :: rest => (parseComment rest).map fun r => (c :: r.1, r.2)
  | [] => none

/-- The rest of an end tag. -/
def parseClosing (name : String) : List Char → Option (List Char)
  | '<' :: '/' :: rest => do
    let (found, rest) ← parseName rest
    match skip rest with
    | '>' :: rest => if found = name then some rest else none
    | _ => none
  | _ => none

/-- The rest of an element and the nodes after it, given how nodes are read. -/
def parseTag (nodes : List Char → Option (List Node × List Char)) (name : String)
    (attributes : List (String × String)) : List Char → Option (List Node × List Char)
  | '/' :: '>' :: rest => do
    let (after, rest) ← nodes rest
    some (.element name attributes [] :: after, rest)
  | '>' :: rest => do
    let (children, rest) ← nodes rest
    let rest ← parseClosing name rest
    let (after, rest) ← nodes rest
    some (.element name attributes children :: after, rest)
  | _ => none

/-- The nodes up to an end tag or the end of the text. -/
def parseNodes : ℕ → List Char → Option (List Node × List Char)
  | 0, _ => none
  | fuel + 1, cs =>
    match skip cs with
    | [] => some ([], [])
    | '<' :: '/' :: rest => some ([], '<' :: '/' :: rest)
    | '<' :: '!' :: '-' :: '-' :: rest => do
      let (text, rest) ← parseComment rest
      let (nodes, rest) ← parseNodes fuel rest
      some (.comment (String.ofList text) :: nodes, rest)
    | '<' :: rest => do
      let (name, rest) ← parseName rest
      let (attributes, rest) ← parseAttributes (rest.length + 1) rest
      parseTag (parseNodes fuel) name attributes rest
    | cs =>
      let (value, rest) := cs.span (· ≠ '<')
      do
        let (nodes, rest) ← parseNodes fuel rest
        some (.text (String.ofList (unescape value)) :: nodes, rest)

/-- The nodes of a whole text. -/
def parse (s : String) : Option (List Node) :=
  match parseNodes (s.toList.length + 1) s.toList with
  | some (nodes, []) => some nodes
  | _ => none

/-! ## Reading back -/

/-- A name that the parser takes. -/
def IsName (name : String) : Prop := name.toList ≠ [] ∧ ∀ c ∈ name.toList, isNameChar c = true

instance (name : String) : Decidable (IsName name) :=
  decidable_of_iff (name.toList ≠ [] ∧ name.toList.all isNameChar = true) (by simp [IsName])

mutual

/-- Names are names, comments hold no dash, and there is no text. -/
def Node.Printable : Node → Prop
  | .element name attributes children =>
    IsName name ∧ (∀ a ∈ attributes, IsName a.1) ∧ PrintableAll children
  | .comment text => '-' ∉ text.toList
  | .text _ => False

/-- Every node of the list is printable. -/
def PrintableAll : List Node → Prop
  | [] => True
  | n :: ns => n.Printable ∧ PrintableAll ns

end

theorem skip_pad (hc : isSpace c = false) (depth : ℕ) (cs : List Char) :
    skip (pad depth ++ c :: cs) = c :: cs := by
  rw [skip, pad, List.dropWhile_append_of_pos]
  · simp [hc]
  · intro a ha
    rw [List.eq_of_mem_replicate ha]
    rfl

/-- Characters up to the first one that stops. -/
theorem span_append {p : Char → Bool} {l : List Char} (hl : ∀ a ∈ l, p a = true)
    (hc : p c = false) (rest : List Char) : (l ++ c :: rest).span p = (l, c :: rest) := by
  rw [List.span_eq_takeWhile_dropWhile, List.takeWhile_append_of_pos hl,
    List.dropWhile_append_of_pos hl]
  simp [hc]

theorem parseName_append {name : String} (hname : IsName name) (hc : isNameChar c = false)
    (rest : List Char) :
    parseName (name.toList ++ c :: rest) = some (name, c :: rest) := by
  rw [parseName, span_append hname.2 hc]
  simp [hname.1]

theorem parseValue_append (value : String) (rest : List Char) :
    parseValue ('=' :: '"' :: (escape value.toList ++ '"' :: rest)) = some (value, rest) := by
  have hvalue : ∀ a ∈ escape value.toList, decide (a ≠ '"') = true := by
    intro a ha
    rw [decide_eq_true_eq]
    rintro rfl
    exact quote_notMem_escape _ ha
  rw [parseValue, span_append hvalue (by decide)]
  simp

/-- A name starts with a character that is neither a blank nor part of the markup. -/
theorem IsName.head {name : String} (h : IsName name) :
    ∃ c cs, name.toList = c :: cs ∧ isNameChar c = true ∧ isSpace c = false := by
  obtain ⟨hne, hall⟩ := h
  cases hname : name.toList with
  | nil => exact absurd hname hne
  | cons c cs =>
    rw [hname] at hall
    have hc := hall c List.mem_cons_self
    refine ⟨c, cs, rfl, hc, ?_⟩
    by_contra hspace
    rw [Bool.not_eq_false, isSpace] at hspace
    simp only [Bool.or_eq_true, decide_eq_true_eq] at hspace
    obtain ((rfl | rfl) | rfl) | rfl := hspace <;> revert hc <;> decide

/-- Attributes are read back. -/
theorem parseAttributes_append {attributes : List (String × String)}
    (hnames : ∀ a ∈ attributes, IsName a.1) (hc : c = '>' ∨ c = '/') (rest : List Char) {fuel : ℕ}
    (hfuel : attributes.length < fuel) :
    parseAttributes fuel (attributes.flatMap renderAttribute ++ c :: rest) =
      some (attributes, c :: rest) := by
  induction attributes generalizing fuel with
  | nil =>
    obtain ⟨fuel, rfl⟩ := Nat.exists_eq_add_of_lt hfuel
    obtain rfl | rfl := hc <;> rfl
  | cons a attributes ih =>
    obtain ⟨k, rfl⟩ := Nat.exists_eq_add_of_lt hfuel
    have hname := hnames a List.mem_cons_self
    obtain ⟨d, ds, hd, hchar, hspace⟩ := hname.head
    have htext : (a :: attributes).flatMap renderAttribute ++ c :: rest =
        ' ' :: (a.1.toList ++ '=' :: '"' :: (escape a.2.toList ++
          '"' :: (attributes.flatMap renderAttribute ++ c :: rest))) := by
      simp [renderAttribute]
    have hskip : ∀ cs, skip (' ' :: (a.1.toList ++ cs)) = a.1.toList ++ cs := by
      intro cs
      rw [skip, hd, List.dropWhile_cons_of_pos (by decide), List.cons_append,
        List.dropWhile_cons_of_neg (by simp [hspace])]
    rw [htext, parseAttributes, hskip, if_neg, parseName_append hname (by decide)]
    · simp only [Option.bind_eq_bind, Option.bind_some, parseValue_append]
      rw [ih (fun b hb => hnames b (List.mem_cons_of_mem _ hb)) (by simp; omega)]
      rfl
    · rw [hd]
      rintro (h | h) <;> simp_all [isNameChar]

/-- A comment is read back. -/
theorem parseComment_append {text : List Char} (h : '-' ∉ text) (rest : List Char) :
    parseComment (text ++ '-' :: '-' :: '>' :: rest) = some (text, rest) := by
  induction text with
  | nil => rfl
  | cons c text ih =>
    rw [List.mem_cons, not_or] at h
    rw [List.cons_append, parseComment, ih h.2]
    · rfl
    · intro rest hc
      exact absurd hc.symm h.1

/-- A closing tag is read back. -/
theorem parseClosing_append {name : String} (hname : IsName name) (rest : List Char) :
    parseClosing name ('<' :: '/' :: (name.toList ++ '>' :: rest)) = some rest := by
  rw [parseClosing, parseName_append hname (by decide)]
  simp [skip, isSpace]

@[simp] theorem parseNodes_newline (fuel : ℕ) (cs : List Char) :
    parseNodes fuel ('\n' :: cs) = parseNodes fuel cs := by
  cases fuel with
  | zero => rfl
  | succ fuel =>
    have hskip : skip ('\n' :: cs) = skip cs := rfl
    rw [parseNodes, parseNodes, hskip]

theorem length_le_renderAttribute (attributes : List (String × String)) :
    attributes.length ≤ (attributes.flatMap renderAttribute).length := by
  induction attributes with
  | nil => simp
  | cons a attributes ih =>
    rw [List.flatMap_cons, List.length_append, List.length_cons]
    have hone : 1 ≤ (renderAttribute a).length := by simp [renderAttribute]
    omega

/-- A tag is read up to its end. -/
theorem parseNodes_opening {name : String} (hname : IsName name)
    {attributes : List (String × String)} (hnames : ∀ a ∈ attributes, IsName a.1)
    (hc : c = '>' ∨ c = '/') (fuel depth : ℕ) (rest : List Char) :
    parseNodes (fuel + 1) (opening depth name attributes ++ c :: rest) =
      parseTag (parseNodes fuel) name attributes (c :: rest) := by
  have hskip : skip (opening depth name attributes ++ c :: rest) =
      '<' :: (name.toList ++ (attributes.flatMap renderAttribute ++ c :: rest)) := by
    have htext : opening depth name attributes ++ c :: rest = pad depth ++
        '<' :: (name.toList ++ (attributes.flatMap renderAttribute ++ c :: rest)) := by
      simp [opening]
    rw [htext, skip_pad (by decide)]
  obtain ⟨d, ds, hd, hchar, -⟩ := hname.head
  have hslash : d ≠ '/' := by
    rintro rfl
    revert hchar
    decide
  have hbang : d ≠ '!' := by
    rintro rfl
    revert hchar
    decide
  -- the name is followed by a blank, or by the end of the tag
  have hparse : parseName (name.toList ++ (attributes.flatMap renderAttribute ++ c :: rest)) =
      some (name, attributes.flatMap renderAttribute ++ c :: rest) := by
    cases attributes with
    | nil => obtain rfl | rfl := hc <;> exact parseName_append hname (by decide) rest
    | cons a attributes => exact parseName_append hname (by decide) _
  have hlength : attributes.length <
      (attributes.flatMap renderAttribute ++ c :: rest).length + 1 := by
    have hle := length_le_renderAttribute attributes
    rw [List.length_append, List.length_cons]
    omega
  rw [parseNodes, hskip]
  split
  case h_1 h => cases h
  case h_2 h => simp_all
  case h_3 h => simp_all
  case h_4 rest' _ _ h =>
    obtain rfl : name.toList ++ (attributes.flatMap renderAttribute ++ c :: rest) = rest' := by
      simpa using h
    simp only [hparse, Option.bind_eq_bind, Option.bind_some]
    rw [parseAttributes_append hnames hc rest hlength]
    rfl
  case h_5 h => simp_all

theorem parseNodes_comment {text : String} (htext : '-' ∉ text.toList) (fuel depth : ℕ)
    (rest : List Char) :
    parseNodes (fuel + 1) ((Node.comment text).render depth ++ rest) =
      (parseNodes fuel rest).map fun r => (.comment text :: r.1, r.2) := by
  have hskip : skip ((Node.comment text).render depth ++ rest) =
      '<' :: '!' :: '-' :: '-' :: (text.toList ++ '-' :: '-' :: '>' :: '\n' :: rest) := by
    have h : (Node.comment text).render depth ++ rest = pad depth ++
        '<' :: '!' :: '-' :: '-' :: (text.toList ++ '-' :: '-' :: '>' :: '\n' :: rest) := by
      simp [Node.render]
    rw [h, skip_pad (by decide)]
  rw [parseNodes, hskip]
  simp only [parseComment_append htext, Option.bind_eq_bind, Option.bind_some, parseNodes_newline]
  cases parseNodes fuel rest <;> simp

/-- Where a list of nodes ends: at an end tag, or at the end of the text. -/
def Ends (rest : List Char) : Prop := skip rest = [] ∨ ∃ cs, skip rest = '<' :: '/' :: cs

theorem skip_closing (depth : ℕ) (name : String) (rest : List Char) :
    skip (closing depth name ++ rest) = '<' :: '/' :: (name.toList ++ '>' :: '\n' :: rest) := by
  have h : closing depth name ++ rest =
      pad depth ++ '<' :: '/' :: (name.toList ++ '>' :: '\n' :: rest) := by
    simp [closing]
  rw [h, skip_pad (by decide)]

theorem length_opening_pos (depth : ℕ) (name : String) (attributes : List (String × String)) :
    0 < (opening depth name attributes).length := by
  rw [opening, List.length_append, List.length_append, List.length_cons]
  omega

/-- Rendered nodes are read back, with as much fuel as there are characters. -/
theorem parseNodes_renderAll : ∀ (ns : List Node) (depth fuel : ℕ) (rest : List Char),
    PrintableAll ns → Ends rest → (renderAll ns depth).length < fuel →
      parseNodes fuel (renderAll ns depth ++ rest) = some (ns, skip rest)
  | [], _, fuel, rest, _, hrest, hfuel => by
    obtain ⟨fuel, rfl⟩ := Nat.exists_eq_add_of_lt hfuel
    simp only [renderAll, List.nil_append]
    rw [parseNodes]
    obtain h | ⟨cs, h⟩ := hrest <;> simp only [h]
  | .element name attributes [] :: ns, depth, fuel, rest, hns, hrest, hfuel => by
    obtain ⟨⟨hname, hnames, -⟩, hns⟩ := hns
    simp only [renderAll, Node.render, List.length_append] at hfuel
    have hpos := length_opening_pos depth name attributes
    obtain ⟨fuel, rfl⟩ : ∃ k, fuel = k + 1 := ⟨fuel - 1, by omega⟩
    have htext : renderAll (.element name attributes [] :: ns) depth ++ rest =
        opening depth name attributes ++ '/' :: '>' :: '\n' :: (renderAll ns depth ++ rest) := by
      simp [renderAll, Node.render]
    have hafter := parseNodes_renderAll ns depth fuel rest hns hrest (by omega)
    rw [htext, parseNodes_opening hname hnames (Or.inr rfl)]
    simp [parseTag, hafter]
  | .element name attributes (child :: children) :: ns, depth, fuel, rest, hns, hrest, hfuel => by
    obtain ⟨⟨hname, hnames, hchildren⟩, hns⟩ := hns
    simp only [renderAll, Node.render, List.length_append] at hfuel
    have hpos := length_opening_pos depth name attributes
    obtain ⟨fuel, rfl⟩ : ∃ k, fuel = k + 1 := ⟨fuel - 1, by omega⟩
    have htext : renderAll (.element name attributes (child :: children) :: ns) depth ++ rest =
        opening depth name attributes ++ '>' :: '\n' ::
        (renderAll (child :: children) (depth + 1) ++
          (closing depth name ++ (renderAll ns depth ++ rest))) := by
      simp [renderAll, Node.render]
    have hclosing := skip_closing depth name (renderAll ns depth ++ rest)
    have hbelow := parseNodes_renderAll (child :: children) (depth + 1) fuel
      (closing depth name ++ (renderAll ns depth ++ rest)) hchildren (Or.inr ⟨_, hclosing⟩)
      (by simp only [renderAll, List.length_append]; omega)
    have hafter := parseNodes_renderAll ns depth fuel rest hns hrest (by omega)
    rw [htext, parseNodes_opening hname hnames (Or.inl rfl)]
    simp [parseTag, hbelow, hclosing, parseClosing_append hname, hafter]
  | .comment text :: ns, depth, fuel, rest, hns, hrest, hfuel => by
    obtain ⟨htext, hns⟩ := hns
    simp only [renderAll, List.length_append] at hfuel
    have hpos : 0 < ((Node.comment text).render depth).length := by
      simp only [Node.render, List.length_append, List.length_cons]
      omega
    obtain ⟨fuel, rfl⟩ : ∃ k, fuel = k + 1 := ⟨fuel - 1, by omega⟩
    have hafter := parseNodes_renderAll ns depth fuel rest hns hrest (by omega)
    rw [renderAll, List.append_assoc, parseNodes_comment htext, hafter]
    rfl
  | .text _ :: _, _, _, _, hns, _, _ => hns.1.elim

/-- A parser of XML, for the documents that are rendered. -/
structure Parser where
  parse : String → Option (List Node)
  parse_render : ∀ doc : Node, doc.Printable →
    parse (String.ofList (doc.render 0)) = some [doc]

/-- There is one. -/
def parser : Parser where
  parse := parse
  parse_render doc hdoc := by
    have hnodes := parseNodes_renderAll [doc] 0 ((doc.render 0).length + 1) [] ⟨hdoc, trivial⟩
      (Or.inl rfl) (by simp [renderAll])
    have htext : renderAll [doc] 0 ++ [] = doc.render 0 := by simp [renderAll]
    rw [htext] at hnodes
    rw [parse, String.toList_ofList, hnodes]
    rfl

end Markup
