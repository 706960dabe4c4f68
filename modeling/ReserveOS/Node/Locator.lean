import ReserveOS.Node.Finality

/-!
# Block locators

`BuildBlockLocator` and `FindFirstKnown` of `locator.go`, and the handler of `/chain/locate` in
`node.go`. A locator lists hashes of the height index from the tip down: the eleven highest ones
first, and then at distances that double, up to a number of entries. The other node answers with the
first entry that it has stored.

`Located` of the sync module is what `postLocate` reads of the answer.
-/

namespace ReserveOS

namespace DB

/-- The loop of `BuildBlockLocator`, with room for so many more entries. -/
def locatorLoop (s : DB) : ℕ → List String → UInt64 → UInt64 → List String
  | 0, loc, _, _ => loc
  | room + 1, loc, step, h =>
      match s.getBlockByHeight h with
      | none => loc
      | some (hashHex, _) =>
          let loc := loc ++ [hashHex]
          if h = 0 then loc
          else
            let step := if 10 < loc.length then step * 2 else step
            s.locatorLoop room loc step (if h < step then 0 else h - step)

/-- `BuildBlockLocator`. Without a tip it returns nil, and no error. -/
def buildBlockLocator (s : DB) (max : ℤ) : List String :=
  let max := if max ≤ 0 then 32 else max
  match s.getTip with
  | none => []
  | some (tipH, tipHash) =>
      let loc := s.locatorLoop max.toNat [] 1 tipH
      if loc = [] ∧ tipHash ≠ "" then [tipHash] else loc

/-- `FindFirstKnown`: the hash and the height of the first stored block. -/
def findFirstKnown (s : DB) : List String → Option (String × UInt64)
  | [] => none
  | hh :: locator =>
      match s.blockByHash hh with
      | some b => some (hh, b.header.height)
      | none => s.findFirstKnown locator

end DB

/-- A request to `/chain/locate`. The body is `none` when it does not decode. -/
structure LocateRequest where
  method : String
  body : Option (List String)

/-- The answer of `/chain/locate`: the status, and the block if one was found. -/
structure LocateResponse where
  status : ℕ
  located : Option (String × UInt64)
deriving DecidableEq

/-- The handler of `/chain/locate`. -/
def DB.chainLocate (s : DB) (req : LocateRequest) : LocateResponse :=
  if req.method ≠ "POST" then ⟨405, none⟩
  else
    match req.body with
    | none => ⟨400, none⟩
    | some locator => ⟨200, s.findFirstKnown locator⟩

end ReserveOS
