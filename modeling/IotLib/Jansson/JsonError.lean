/-
  What the decoder tells its caller (`error.c`): the value, and the members of `json_error_t`.
-/
import IotLib.Jansson.Load

namespace Jansson

/-- `json_error_t`; `code` is the last byte of the text. -/
structure JsonError where
  line : Int32
  column : Int32
  position : Int32
  source : Bytes
  text : Bytes
  code : Option ErrorCode
deriving DecidableEq

/-- `jsonp_error_init` -/
def jsonpErrorInit (source : Bytes) : JsonError :=
  { line := -1, column := -1, position := 0, source := source, text := [], code := none }

/-- `jsonp_error_set` -/
def jsonpErrorSet (error : JsonError) (err : Error) : JsonError :=
  if error.text ≠ [] then error
  else
    { error with
      line := .ofInt err.line
      column := .ofInt err.column
      position := .ofInt err.position
      text := err.text
      code := some err.code }

section
variable {R δ : Type}

/-- What a run of the decoder returns, with its `error`. The lexer has the first error that was set;
    a position is saved even if there was none. -/
def reported (source : Bytes) (r : Option (Json R) × Lex R δ) : Option (Json R) × JsonError :=
  let error :=
    match r.2.error with
    | none => jsonpErrorInit source
    | some err => jsonpErrorSet (jsonpErrorInit source) err
  match r.1 with
  | none => (none, error)
  | some value => (some value, { error with position := .ofInt r.2.stream.position })

/-- `json_loads`, with its `error` -/
def jsonLoadsError (strtod : Bytes → Option R) (flags : LoadFlags) (string : Bytes) :
    Option (Json R) × JsonError :=
  reported (ascii "<string>") (load stringGet strtod flags string)

/-- `json_loadb`, with its `error` -/
def jsonLoadbError (strtod : Bytes → Option R) (flags : LoadFlags) (buffer : Bytes) :
    Option (Json R) × JsonError :=
  reported (ascii "<buffer>") (load bufferGet strtod flags buffer)

theorem jsonLoadsError_fst (strtod : Bytes → Option R) (flags : LoadFlags) (string : Bytes) :
    (jsonLoadsError strtod flags string).1 = jsonLoads strtod flags string := by
  unfold jsonLoadsError reported jsonLoads
  dsimp only
  cases (load stringGet strtod flags string).1 <;> rfl

/-- The report depends on the value, the first error and the position alone. -/
theorem reported_congr {δ' : Type} {r : Option (Json R) × Lex R δ} {r' : Option (Json R) × Lex R δ'}
    (source : Bytes) (hvalue : r'.1 = r.1) (herror : r'.2.error = r.2.error)
    (hposition : r'.2.stream.position = r.2.stream.position) :
    reported source r' = reported source r := by
  unfold reported
  rw [hvalue, herror, hposition]

/-- The name of the source is in the report as it was given. -/
theorem reported_source (source source' : Bytes) (r : Option (Json R) × Lex R δ) :
    reported source' r = ((reported source r).1, { (reported source r).2 with source := source' }) := by
  have hset : ∀ (source : Bytes) (err : Error), jsonpErrorSet (jsonpErrorInit source) err =
      { line := .ofInt err.line, column := .ofInt err.column, position := .ofInt err.position
        source := source, text := err.text, code := some err.code } :=
    fun _ _ => if_neg (not_not_intro rfl)
  unfold reported
  cases r.1 with
  | none =>
    cases r.2.error with
    | none => rfl
    | some err => simp only [hset]
  | some value =>
    cases r.2.error with
    | none => rfl
    | some err => simp only [hset]

end

end Jansson
