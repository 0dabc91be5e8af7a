/-
The commit reader of the GitHub adapter (`commit` and `_parse_commit` of
`modules/github_publications/http_adapter.py`) and the two uses `publish` makes of it: for
the base commit and for the commit that was created.

A response is what `httpx` hands over, with its body decoded. `fromisoformat` is that of
`datetime`: the seconds of the moment, and the offset where the text has one.
-/
import Novalton.GitHubPublications
import Novalton.JsonText

namespace Novalton.GitHubPublications

/-- A response of the API: its status, and the size of its body with what `json.loads`
makes of it. -/
structure Response where
  status : ℕ
  size : ℕ
  json : Option JsonTree

/-- `httpx` raises, for the request or for the body. -/
inductive Reply where
  | failed
  | cut (status : ℕ)
  | response (response : Response)

section
variable (fromisoformat : Text → Option (Int × Option Int))

/-- `value.get(key)` -/
def get (fields : Dict Text JsonTree) (key : String) : Option JsonTree := fields.get? key.toList

/-- `_required_text` -/
def requiredText (value : Option JsonTree) (code : String) : Except String Text :=
  match value with
  | .some (.string text) => if text.isEmpty then .error code else .ok text
  | _ => .error code

def requiredObject (value : Option JsonTree) (code : String) : Except String (Dict Text JsonTree) :=
  match value with
  | .some (.object fields) => .ok fields
  | _ => .error code

/-- `c.get("author", {})` -/
def personOf (value : Option JsonTree) (code : String) : Except String (Dict Text JsonTree) :=
  match value with
  | .none => .ok []
  | value => requiredObject value code

/-- `parsed_date` -/
def parsedDate (value : Option JsonTree) (code : String) : Except String (Int × Int) :=
  match value with
  | .some (.string text) =>
    match fromisoformat (replace ['Z'] "+00:00".toList text) with
    | .some (timestamp, .some offset) => .ok (timestamp, offset)
    | _ => .error code
  | _ => .error code

/-- `f"{name} <{email}>"` -/
def identityText (name email : Text) : Text := name ++ ' ' :: '<' :: (email ++ ['>'])

end

/-! ### A remote that holds the commit -/

/-- A person of a commit as the API reports it. -/
structure Person where
  name : Text
  email : Text
  date : Text
deriving DecidableEq

/-- An object reports a person of a commit and the moment. -/
structure Person.Reported (fromisoformat : Text → Option (Int × Option Int)) (person : Person)
    (line : Bytes) (time timezone : Int) (value : Option JsonTree) : Prop where
  object : ∃ fields, value = .some (.object fields) ∧
    get fields "name" = .some (.string person.name) ∧
    get fields "email" = .some (.string person.email) ∧
      get fields "date" = .some (.string person.date)
  line : encode (identityText person.name person.email) = line
  date : fromisoformat (replace ['Z'] "+00:00".toList person.date) = .some (time, .some timezone)

/-- Where a response has the message and the persons of a commit: in an object `commit`, or
beside the id as the endpoint for git commits has them. -/
inductive Shape where
  | nested | flat
deriving DecidableEq, Repr

/-- What the reader demands of the commit beyond being reported. -/
structure Readable (shape : Shape) (commit : Commit) (message : Text) (author committer : Person) :
    Prop where
  shape : shape = .nested
  parents : commit.parents.length = 1
  message : message ≠ []
  author : author.name ≠ [] ∧ author.email ≠ []
  committer : committer.name ≠ [] ∧ committer.email ≠ []

section
variable {fromisoformat : Text → Option (Int × Option Int)} (code : String)

theorem bind_eq_ok {α β : Type} {x : Except String α} {f : α → Except String β} {b : β} :
    (x >>= f) = .ok b ↔ ∃ a, x = .ok a ∧ f a = .ok b := by
  cases x with
  | error e => simp [bind, Except.bind]
  | ok a => simp [bind, Except.bind]

theorem requiredText_string (text : Text) :
    requiredText (.some (.string text)) code = if text = [] then .error code else .ok text := by
  cases text <;> rfl

theorem Person.Reported.reads {person : Person} {line : Bytes} {time timezone : Int}
    {value : Option JsonTree} (h : person.Reported fromisoformat line time timezone value) :
    ∃ fields, personOf value code = .ok fields ∧
      requiredText (get fields "name") code =
        (if person.name = [] then .error code else .ok person.name) ∧
      requiredText (get fields "email") code =
        (if person.email = [] then .error code else .ok person.email) ∧
      parsedDate fromisoformat (get fields "date") code = .ok (time, timezone) := by
  obtain ⟨fields, rfl, hname, hemail, hdate⟩ := h.object
  refine ⟨fields, rfl, ?_, ?_, ?_⟩
  · rw [hname, requiredText_string]
  · rw [hemail, requiredText_string]
  · rw [hdate]
    simp only [parsedDate, h.date]

variable {code}

variable {shape : Shape} {sha : Text} {commit : Commit} {message : Text} {author committer : Person}
  {fields : Dict Text JsonTree}

end

/-! ### The two uses -/

section
variable {fromisoformat : Text → Option (Int × Option Int)} {shape : Shape} {sha : Text}
  {commit : Commit} {message : Text} {author committer : Person} {fields : Dict Text JsonTree}
  {size : ℕ}

end

def idOf (c : Char) : Text := List.replicate 40 c

end Novalton.GitHubPublications
