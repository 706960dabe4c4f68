import ReserveOS.Node.Finality

/-!
# Writing the validator registry

`PutValidator`, `GetValidator` and `SlashValidator` of `pos_validators.go`, and the `/pos/register`
handler. A record is one JSON value, so a registration replaces all of it.
-/

namespace ReserveOS

namespace DB

/-- `PutValidator`, at the time `now`. -/
def putValidator (now : Int64) (s : DB) (v : RegValidator) : DB :=
  let v' := if v.addedUnix = 0 then { v with addedUnix := now } else v
  { s with validators := s.validators.insert v'.pubkeyHex v' }

/-- `GetValidator`. -/
def getValidator (s : DB) (pub : String) : Option RegValidator := s.validators[pub]?

/-- `SlashValidator`. A key without a record gets one. -/
def slashValidator (now : Int64) (s : DB) (pub : String) : DB :=
  let v := (s.getValidator pub).getD ⟨pub, "unknown", 0, 0, false⟩
  s.putValidator now { v with slashed := true }

end DB

/-- The body of a request to `/pos/register`. -/
structure RegisterBody where
  pubkeyHex : String
  name : String
  weight : Int64

/-- A request to `/pos/register`; `body` is `none` when it does not decode. -/
structure RegisterRequest where
  method : String
  body : Option RegisterBody

/-- The record that a registration stores. -/
def RegisterBody.record (body : RegisterBody) : RegValidator :=
  ⟨body.pubkeyHex, body.name, if body.weight ≤ 0 then 1 else body.weight, 0, false⟩

/-- The `/pos/register` handler. -/
def posRegister (now : Int64) (s : DB) (req : RegisterRequest) : Response × DB :=
  if req.method ≠ "POST" then (⟨405, ""⟩, s)
  else
    match req.body with
    | none => (⟨400, ""⟩, s)
    | some body =>
        if body.pubkeyHex = "" then (⟨400, "\x7b\"error\":\"missing_pubkey\"\x7d"⟩, s)
        else (⟨200, "\x7b\"ok\":true\x7d\n"⟩, s.putValidator now body.record)

/-- What can happen to the registry. -/
inductive RegistryEvent where
  | slash (now : Int64) (pub : String)
  | register (now : Int64) (req : RegisterRequest)

/-- The database after a call. -/
def registryStep (s : DB) : RegistryEvent → DB
  | .slash now pub => s.slashValidator now pub
  | .register now req => (posRegister now s req).2

namespace DB

variable {s : DB} {now : Int64}

theorem validators_putValidator (v : RegValidator) (pub : String) :
    (s.putValidator now v).validators[pub]? = if v.pubkeyHex = pub then
        some { v with addedUnix := if v.addedUnix = 0 then now else v.addedUnix }
      else s.validators[pub]? := by
  unfold putValidator
  dsimp only
  split <;> rw [Table.getElem?_put]

end DB

end ReserveOS
