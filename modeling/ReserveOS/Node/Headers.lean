import ReserveOS.Node.Events
import ReserveOS.Node.Reorg

/-!
# Header records and header batches

The database holds headers under two kinds of keys. `headers.go` writes `hdr:hash:` and the hash,
which is what `SubmitBlock` calls; `headers_index.go` writes and reads `hdr:` and the hash, and its
reader is the one of `BlockMatchesStoredHeader` and of the reorganisation. `HeaderRecords` is the
part of the database that holds headers, by its keys, and `submitKeyed` is `SubmitBlock` together
with what it writes there.

`validateHeadersChain` of `p2p_gossip.go` checks a batch of headers that a peer sends.
-/

namespace ReserveOS

/-! ### Records -/

/-- The headers of the database by their keys. -/
abbrev HeaderRecords : Type := String → Option BlockHeader

namespace HeaderRecords

/-- `keyHeaderByHash` of `headers.go`. -/
def keyHeaderByHash (hashHex : String) : String := "hdr:hash:" ++ hashHex

/-- `keyHdrHash` of `headers_index.go`. -/
def keyHdrHash (hash : String) : String := "hdr:" ++ hash

/-- `PutHeader` of `headers.go`. -/
def putHeader (kv : HeaderRecords) (hashHex : String) (header : BlockHeader) : HeaderRecords :=
  Function.update kv (keyHeaderByHash hashHex) (some header)

/-- `PutHeader` of `headers_index.go`, without the entry that it makes for the height. -/
def putIndexHeader (kv : HeaderRecords) (header : BlockHeader) (hash : String) : HeaderRecords :=
  Function.update kv (keyHdrHash hash) (some header)

/-- The header index, as `GetHeaderByHash` of `headers_index.go` reads it. -/
def index (kv : HeaderRecords) (tip : Option (UInt64 × String)) : HeaderIndex :=
  ⟨fun hash => kv (keyHdrHash hash), tip⟩

end HeaderRecords

namespace Node

variable (n : Node)

/-- `SubmitBlock` with the header record that it writes for a block that it stores. -/
def submitKeyed (st : DB × HeaderRecords) (c : Int64 × Block) : DB × HeaderRecords :=
  (n.submit st.1 c,
    if n.preStore st.1 c.2 = .ok true then st.2.putHeader (n.hashHex c.2.header) c.2.header
    else st.2)

end Node

/-! ### Batches -/

/-- `validateHeadersChain`. Without claimed hashes only the first header is looked at. -/
def validateHeadersChain (tipHash : String) (headers : List BlockHeader) (hashes : List String) :
    Bool :=
  match headers with
  | [] => true
  | first :: rest =>
      if hashes ≠ [] ∧ hashes.length ≠ headers.length then false
      else if first.prevHash.toHex ≠ tipHash then false
      else hashes = [] || (rest.zip hashes).all fun e => e.1.prevHash.toHex = e.2

end ReserveOS
