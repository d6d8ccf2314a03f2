import DegreeScore.Service.Basic

/-!
# Routing

Each endpoint has a path and a method. A path that is not clean, or that ends in a slash, is answered
with the place to go to instead.
-/

namespace DegreeScore

/-- What the service offers. -/
inductive Endpoint
  | compile
  | events
  | health
deriving Repr, DecidableEq

namespace Endpoint

/-- The path of an endpoint. -/
def path : Endpoint → Bytes
  | .compile => Bytes.ofString "/compile"
  | .events => Bytes.ofString "/events"
  | .health => Bytes.ofString "/healthz"

/-- The method of an endpoint. -/
def method : Endpoint → String
  | .compile => "POST"
  | .events => "POST"
  | .health => "GET"

/-- The endpoint at a path, which may end in a slash. -/
def at? (path : Bytes) : Option Endpoint :=
  [compile, events, health].find? fun e => path = e.path ∨ path = e.path ++ [47]

/-- Answers a request to an endpoint. -/
def answer (env : Environment) (e : Endpoint) (r : Request) (id : String) : Answer :=
  match e with
  | .compile => r.answerCompile id
  | .events => r.answerEvents env id
  | .health => .json 200 (.object [("status", .text "ok")])

end Endpoint

namespace Answer

/-- A character of a text on a page. -/
def pageChar (c : Char) : String :=
  match c with
  | '&' => "&amp;"
  | '<' => "&lt;"
  | '>' => "&gt;"
  | '"' => "&#34;"
  | '\'' => "&#39;"
  | c => c.toString

/-- Sends the client to another target. A reader gets a page with a link. -/
def moved (method : String) (target : Target) : Answer :=
  let place := target.splitFragment.written
  let answer : Answer :=
    { status := 301, location := some (Utf8.toText (Target.escapeNonAscii place)) }
  let typed : Answer := { answer with contentType := "text/html; charset=utf-8" }
  if method = "GET" then
    { typed with
      content := .page ("<a href=\"" ++ String.join ((Utf8.toText place).toList.map pageChar) ++
        "\">Moved Permanently</a>.\n\n") }
  else if method = "HEAD" then typed
  else answer

/-- There is nothing at the path. -/
def notFound : Answer :=
  { status := 404, contentType := "text/plain; charset=utf-8"
    content := .page "404 page not found\n" }

end Answer

/-- Answers a request that has been given an id. -/
def Request.answer (env : Environment) (r : Request) (id : String) : Answer :=
  let path := r.target.path
  let cleaned := Target.cleanPath path
  if cleaned ≠ path then
    { status := 301, location := some (Utf8.toText { r.target with path := cleaned }.written) }
  else
    match Endpoint.at? path with
    | none => .notFound
    | some e =>
      if r.method ≠ e.method then { status := 405 }
      else if path = e.path then { e.answer env r id with requestId := some id }
      else { Answer.moved r.method { r.target with path := e.path } with requestId := some id }

end DegreeScore
