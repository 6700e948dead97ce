import KeypadCalculator.Toml.Quoted

/-!
Reading a TOML document into its root table. A reader takes the text that it starts at and returns
what it read with the rest, or nothing where the text is no TOML.
-/

namespace KeypadCalculator.Toml

/-- How deep arrays and inline tables may nest, and how many parts a key may have. -/
def maxNesting : Nat := 80

/-- Skips blanks, line breaks and comments; the flag tells whether a comment is being skipped. -/
def skipTrivia (inComment : Bool) : Text → Text
  | [] => []
  | '\n' :: t => skipTrivia false t
  | '\r' :: '\n' :: t => skipTrivia false t
  | c :: t =>
    if inComment && isPlain c then skipTrivia true t
    else if !inComment && isSpace c then skipTrivia false t
    else if !inComment && c == '#' then skipTrivia true t
    else c :: t

/-- Ends a line: blanks, perhaps a comment, and a line break or the end of the text. -/
def endLine? (t : Text) : Option Text :=
  let afterComment :=
    match skipSpaces t with
    | '#' :: t => t.dropWhile isPlain
    | t => t
  match afterComment with
  | [] => some []
  | t => skipNewline? t

def isBareKeyChar (c : Char) : Bool :=
  c.isAlphanum || c == '_' || c == '-'

/-- One part of a key, bare or quoted on one line. -/
def simpleKey? : Text → Option (Text × Text)
  | '"' :: t => basic? [] t
  | '\'' :: t => literal? [] t
  | t =>
    let key := t.takeWhile isBareKeyChar
    if key.isEmpty then none else some (key, t.dropWhile isBareKeyChar)

/-- A key of one or more parts with points between them: the path to a table, and the key in it. -/
def key? (path : List Text) (t : Text) : Option (List Text × Text × Text) :=
  match simpleKey? t with
  | none => none
  | some (key, rest) =>
    if maxNesting ≤ path.length then none
    else
      match skipSpaces rest with
      | '.' :: after =>
        let next := skipSpaces after
        if _h : next.length < t.length then key? (path ++ [key]) next else none
      | _ => some (path, key, rest)
termination_by t.length

/-- A key and its value. What is skipped around the equals sign depends on where they stand. -/
def entry? (skip : Text → Text) (value? : Text → Option (Value × Text)) (t : Text) :
    Option (List Text × Text × Value × Text) :=
  match key? [] t with
  | none => none
  | some (path, key, rest) =>
    match skip rest with
    | '=' :: rest => (value? (skip rest)).map fun (value, rest) => (path, key, value, rest)
    | _ => none

/-- The rest of an array, from an element or the closing bracket on. -/
def array? (value? : Text → Option (Value × Text)) (t : Text) : Option Text :=
  match skipTrivia false t with
  | ']' :: rest => some rest
  | start =>
    match value? start with
    | none => none
    | some (_, rest) =>
      match skipTrivia false rest with
      | ']' :: rest => some rest
      | ',' :: rest => if _h : rest.length < t.length then array? value? rest else none
      | _ => none
termination_by t.length

/-- The rest of an inline table with the entries read before, from an entry or the closing brace
on. Everywhere but within a key it may be broken into lines. -/
def inlineTable? (value? : Text → Option (Value × Text)) (entries : Table) (t : Text) :
    Option (Table × Text) :=
  match skipTrivia false t with
  | '}' :: rest => some (entries, rest)
  | start =>
    match entry? (skipTrivia false) value? start with
    | none => none
    | some (path, key, value, rest) =>
      match entries.assign path key value .inlined with
      | none => none
      | some entries =>
        match skipTrivia false rest with
        | '}' :: rest => some (entries, rest)
        | ',' :: rest =>
          if _h : rest.length < t.length then inlineTable? value? entries rest else none
        | _ => none
termination_by t.length

/-- A value in which arrays and inline tables may nest so deep. -/
def value? : Nat → Text → Option (Value × Text)
  | room + 1, '[' :: t => (array? (value? room) t).map fun rest => (.other, rest)
  | room + 1, '{' :: t =>
    (inlineTable? (value? room) [] t).map fun (entries, rest) => (.table .inlined entries, rest)
  | _, '"' :: t => (quoted? ('"' :: t)).map fun (text, rest) => (.text text, rest)
  | _, '\'' :: t => (quoted? ('\'' :: t)).map fun (text, rest) => (.text text, rest)
  | _, t =>
    let (word, rest) := splitWord t
    (scalar? word).map fun value => (value, rest)

/-- The tables read so far, and the path of the table that the last header opened. -/
structure Document where
  root : Table
  current : List Text

namespace Document

def empty : Document := ⟨[], []⟩

/-- Defines a key in the current table. -/
def assign (d : Document) (path : List Text) (key : Text) (value : Value) : Option Document :=
  let define (_ : Origin) (t : Table) : Option Table := t.assign path key value .header
  (d.root.within false define d.current .header).map fun root => { d with root }

def openTable (d : Document) (path : List Text) (key : Text) : Option Document :=
  (d.root.openTable path key).map fun root => ⟨root, path ++ [key]⟩

def openTables (d : Document) (path : List Text) (key : Text) : Option Document :=
  (d.root.openTables path key).map fun root => ⟨root, path ++ [key]⟩

/-- Reads one line that is neither blank nor a comment, up to where it must end. -/
def line? (d : Document) : Text → Option (Document × Text)
  | '[' :: '[' :: t =>
    match key? [] (skipSpaces t) with
    | none => none
    | some (path, key, rest) =>
      match skipSpaces rest with
      | ']' :: ']' :: rest => (d.openTables path key).map fun d => (d, rest)
      | _ => none
  | '[' :: t =>
    match key? [] (skipSpaces t) with
    | none => none
    | some (path, key, rest) =>
      match skipSpaces rest with
      | ']' :: rest => (d.openTable path key).map fun d => (d, rest)
      | _ => none
  | t =>
    match entry? skipSpaces (value? maxNesting) t with
    | none => none
    | some (path, key, value, rest) => (d.assign path key value).map fun d => (d, rest)

/-- Reads all lines of a text. -/
def read? (d : Document) (t : Text) : Option Document :=
  match skipTrivia false t with
  | [] => some d
  | start =>
    match d.line? start with
    | none => none
    | some (d, rest) =>
      match endLine? rest with
      | none => none
      | some rest => if _h : rest.length < t.length then d.read? rest else none
termination_by t.length

end Document

/-- A mark that some editors put in front of a text. -/
def byteOrderMark : Char := '\uFEFF'

/-- The root table of a document. -/
def parse? (t : Text) : Option Table :=
  let t :=
    match t with
    | c :: rest => if c = byteOrderMark then rest else t
    | [] => t
  (Document.empty.read? t).map Document.root

end KeypadCalculator.Toml
