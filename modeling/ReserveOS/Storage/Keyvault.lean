import ReserveOS.Chain.Codec

/-!
# The keyvault

`keyvault.go`: a file with the encrypted JSON object whose member `kv` maps names to keys. A `Vault`
reads the file once, when it is opened, and writes its whole map at every `SetString`. The node, its
P2P layer, the wallet daemon and the platformdb daemon each open a `Vault` of their own on one path.

`encoding/json`, AES-GCM and SHA-256 are parameters (`VaultCodec`) that are assumed to round-trip.
`maybeRotateLocked`, which the repository does not define, is read as doing nothing.
-/

namespace ReserveOS

/-- The JSON object in the file: its member `kv`, if there is one. -/
structure VaultData where
  kv : Option (Table String)

namespace VaultData

variable (d : VaultData)

/-- The empty object that a new file starts with. -/
def empty : VaultData := ⟨some ∅⟩

/-- `GetString`. -/
def getString (key : String) : Option String := d.kv.bind fun kv => kv[key]?

/-- The change that `SetString` makes to the map. -/
def setString (key value : String) : VaultData := ⟨some ((d.kv.getD ∅).insert key value)⟩

end VaultData

/-- Twelve random bytes. -/
abbrev Nonce : Type := { b : List UInt8 // b.length = 12 }

/-- The code outside the repository that a `Vault` uses. -/
structure VaultCodec where
  /-- `sha256.Sum256`. -/
  sha256 : List UInt8 → Hash
  /-- `json.Marshal`. -/
  marshal : VaultData → List UInt8
  /-- `json.Unmarshal`. -/
  unmarshal : List UInt8 → Res VaultData
  /-- `gcm.Seal(nil, nonce, plain, nil)`. -/
  sealBytes : Hash → List UInt8 → List UInt8 → List UInt8
  /-- `gcm.Open(nil, nonce, ct, nil)`. -/
  openBytes : Hash → List UInt8 → List UInt8 → Res (List UInt8)
  unmarshal_marshal : ∀ d, unmarshal (marshal d) = .ok d
  openBytes_sealBytes : ∀ key (nonce : Nonce) plain,
    openBytes key nonce (sealBytes key nonce plain) = .ok plain

/-- `"KVAULT1:"`. -/
def vaultHeader : List UInt8 := stringBytes "KVAULT1:"

namespace VaultCodec

variable (c : VaultCodec) (kek : String)

/-- `deriveKey`. -/
def deriveKey (keyID : String) : Hash := c.sha256 (stringBytes (kek ++ "|" ++ keyID))

/-- The bytes that `persistLocked` writes. -/
def persisted (nonce : Nonce) (d : VaultData) : List UInt8 :=
  vaultHeader ++ nonce ++ c.sealBytes (c.deriveKey kek "k1") nonce (c.marshal d)

/-- `readDecrypted`; `none` is a file that does not exist. -/
def readDecrypted (file : Option (List UInt8)) : Res (List UInt8) :=
  match file with
  | none => .error (.error "no such file or directory")
  | some bytes =>
      if bytes.length < vaultHeader.length + 12 then .error (.error "invalid keyvault file")
      else if bytes.take 8 ≠ vaultHeader then .error (.error "invalid keyvault header")
      else c.openBytes (c.deriveKey kek "k1") ((bytes.drop 8).take 12) (bytes.drop 20)

/-- `OpenOrInit` after `os.Stat` has found the file. -/
def openVault (file : Option (List UInt8)) : Res VaultData :=
  (c.readDecrypted kek file).bind fun plain =>
    (c.unmarshal plain).bind fun obj => .ok ⟨some (obj.kv.getD ∅)⟩

/-- The map of an object that is opened now: a file that does not exist is started empty. -/
def reopen (file : Option (List UInt8)) : Res VaultData :=
  if file.isSome then c.openVault kek file else .ok .empty

end VaultCodec

/-! ### Several objects on one path -/

/-- A `Vault` object from the call of `OpenOrInit` on: before it, after `os.Stat`, opened with its
map, or refused with an error. -/
inductive VaultObject where
  | closed
  | found (isThere : Bool)
  | opened (data : VaultData)
  | failed (err : Fault)

/-- What happens next to one object. `write` is how `persistLocked` ends: with a nonce and a written
file, or with an error that leaves the file as it was. -/
inductive VaultEvent (ι : Type*) where
  | stat (i : ι)
  | openOrInit (i : ι) (write : Res Nonce)
  | setString (i : ι) (key value : String) (write : Res Nonce)

/-- The file, the objects, and the calls of `SetString` that have returned `nil`, newest first. -/
structure VaultRun (ι : Type*) where
  file : Option (List UInt8)
  object : ι → VaultObject
  log : List (String × String)

namespace VaultRun

variable {ι : Type*}

/-- No object is open yet. -/
def start (file : Option (List UInt8)) : VaultRun ι := ⟨file, fun _ => .closed, []⟩

variable [DecidableEq ι] (c : VaultCodec) (kekEnv kek : String) (s : VaultRun ι)

/-- An object changes, and nothing else. -/
def become (i : ι) (o : VaultObject) : VaultRun ι :=
  { s with object := Function.update s.object i o }

/-- An object writes its map. -/
def persist (i : ι) (nonce : Nonce) (d : VaultData) (log : List (String × String)) :
    VaultRun ι where
  file := some (c.persisted kek nonce d)
  object := Function.update s.object i (.opened d)
  log := log

/-- `OpenOrInit` up to `os.Stat`. -/
def stat (i : ι) : VaultRun ι :=
  match s.object i with
  | .closed =>
      if kek = "" then s.become i (.failed (.error ("missing keymaster env: " ++ kekEnv)))
      else s.become i (.found s.file.isSome)
  | _ => s

/-- The rest of `OpenOrInit`: the file is started or read, whatever has become of it since. -/
def openOrInit (i : ι) (write : Res Nonce) : VaultRun ι :=
  match s.object i, write with
  | .found false, .ok nonce => s.persist c kek i nonce .empty s.log
  | .found false, .error e => s.become i (.failed e)
  | .found true, _ =>
      match c.openVault kek s.file with
      | .ok d => s.become i (.opened d)
      | .error e => s.become i (.failed e)
  | _, _ => s

/-- `SetString`. The map is changed before it is written, and stays changed if that fails. -/
def setString (i : ι) (key value : String) (write : Res Nonce) : VaultRun ι :=
  match s.object i, write with
  | .opened d, .ok nonce =>
      s.persist c kek i nonce (d.setString key value) ((key, value) :: s.log)
  | .opened d, .error _ => s.become i (.opened (d.setString key value))
  | _, _ => s

/-- One event. -/
def step (e : VaultEvent ι) : VaultRun ι :=
  match e with
  | .stat i => s.stat kekEnv kek i
  | .openOrInit i write => s.openOrInit c kek i write
  | .setString i key value write => s.setString c kek i key value write

end VaultRun

end ReserveOS
