import IpfsCache.Answers
import IpfsCache.ClientNames
import IpfsCache.Content

/-! Calls of Client::get_content, any number under way while set_ipns replaces the database and
the databases load new roots. A call asks the database that is current when it begins, and when
that has a record for the url, the backend for the content that the record names. -/
namespace IpfsCache

def Traffic.destroy (s : Traffic) : Traffic := { s with destroyed := true, current := none }

def Traffic.loadDb (files : Files) (pathToRepo ipns : StdString) (s : Traffic) : Traffic :=
  match files.content (pathToDb pathToRepo ipns) with
  | none => s
  | some text => if looksLikeCid (firstWord text) then s.load (firstWord text) else s

structure Shelf where
  tree : Traffic
  owners : List Nat

structure GetCall where
  url : Key
  db : Nat

structure ContentFetch (Ptime : Type) where
  call : Nat
  ts : Ptime
  contentHash : Hash

structure GetContents (σ Ptime : Type) where
  client : Client σ
  shelves : List Shelf
  calls : List GetCall
  fetching : List (ContentFetch Ptime)
  answers : List (Nat × Except ErrorCode (CachedContent Ptime))

inductive GetEvent where
  | client (e : ClientEvent)
  | getContent (url : Key)
  | block (i j : Nat) (data : Except ErrorCode Value)
  | content (k : Nat) (data : Except ErrorCode Value)

namespace GetContents
variable {σ Ptime : Type}

def initial (pathToRepo ipns : StdString) (files : Files) (world : σ) : GetContents σ Ptime :=
  ⟨.initial pathToRepo ipns files world,[⟨.fresh,[]⟩],[],[],[]⟩

def called (url : Key) (s : GetContents σ Ptime) : GetContents σ Ptime :=
  { s with calls := s.calls ++ [⟨url,s.client.current⟩] }

def answer (call : Nat) (result : Except ErrorCode (CachedContent Ptime)) (s : GetContents σ Ptime) :
    GetContents σ Ptime :=
  { s with answers := s.answers ++ [(call,result)] }

def queried (json : JsonLib) (dt : DateTime Ptime) (call : Nat) (result : Except ErrorCode Value)
    (s : GetContents σ Ptime) : GetContents σ Ptime :=
  match result with
  | .error ec => s.answer call (.error ec)
  | .ok rawJson =>
    match readEntry json dt rawJson with
    | none => s.answer call (.error .notFound)
    | some (ts,contentHash) => { s with fetching := s.fetching ++ [⟨call,ts,contentHash⟩] }

def goesOn (json : JsonLib) (dt : DateTime Ptime) (i call : Nat) (owners : List Nat) (served : Nat) (tree : Traffic)
    (s : GetContents σ Ptime) : GetContents σ Ptime :=
  match tree.served.drop served with
  | [] => { s with shelves := s.shelves.set i ⟨tree,owners ++ [call]⟩ }
  | r :: _ => { s with shelves := s.shelves.set i ⟨tree,owners⟩ }.queried json dt call r.result

def works (i : Nat) (f : ClientDb → Traffic → Traffic) (s : GetContents σ Ptime) : List Shelf :=
  match s.client.dbs[i]? with
  | none => s.shelves
  | some d => if d.wasDestroyed then s.shelves else s.shelves.modify i fun x => { x with tree := f d.db x.tree }

def destroyTree (s : GetContents σ Ptime) : List Shelf :=
  s.shelves.modify s.client.current fun x => { x with tree := x.tree.destroy }

def follow (s : GetContents σ Ptime) : ClientEvent → List Shelf
  | .setIpns _ => s.destroyTree ++ [⟨.fresh,[]⟩]
  | .destroy => s.destroyTree
  | .begins i => s.works i fun db => .loadDb s.client.files db.pathToRepo db.ipns
  | .resolved i (.ok ipfsId) => s.works i fun _ => .load ipfsId
  | _ => s.shelves

def step (json : JsonLib) (S : Storage σ) (dt : DateTime Ptime) (s : GetContents σ Ptime) :
    GetEvent → Option (GetContents σ Ptime)
  | .client e => (s.client.step json S e).map fun client => { s with client := client, shelves := s.follow e }
  | .getContent url =>
    match s.client.gone,s.shelves[s.client.current]? with
    | false,some x =>
      (x.tree.step (clientConfig json) (.find url)).map fun tree =>
        (s.called url).goesOn json dt s.client.current s.calls.length x.owners x.tree.served.length tree
    | _,_ => none
  | .block i j data =>
    match s.shelves[i]? with
    | none => none
    | some x =>
      match x.owners[j]? with
      | none => none
      | some call =>
        (x.tree.step (clientConfig json) (.block j data)).map
          (s.goesOn json dt i call (x.owners.eraseIdx j) x.tree.served.length ·)
  | .content k data =>
    match s.fetching[k]? with
    | none => none
    | some f =>
      some ({ s with fetching := s.fetching.eraseIdx k }.answer f.call (data.map (.mk f.ts)))

/-- What comes by its hash is what belongs to it, if it comes. What a name resolves to has
been published under it; such an id is printed without white space. -/
def Allowed (content : Hash → Option Value) (published : StdString → Hash → Prop) (s : GetContents σ Ptime) :
    GetEvent → Prop
  | .client (.resolved i (.ok ipfsId)) => ∀ d, s.client.dbs[i]? = some d →
      published d.db.ipns ipfsId ∧ ∀ b ∈ ipfsId.bytes, isSpace b = false
  | .block i j data => ∀ x, s.shelves[i]? = some x → x.tree.Served content (.block j data)
  | .content k data => ∀ f text, s.fetching[k]? = some f → data = .ok text → content f.contentHash = some text
  | _ => True

def Step (json : JsonLib) (S : Storage σ) (dt : DateTime Ptime) (content : Hash → Option Value)
    (published : StdString → Hash → Prop) (s : GetContents σ Ptime) (e : GetEvent) (s' : GetContents σ Ptime) :
    Prop :=
  s.Allowed content published e ∧ s.step json S dt e = some s'

def Starts (published : StdString → Hash → Prop) (s : GetContents σ Ptime) : Prop :=
  ∃ pathToRepo ipns files world, s = initial pathToRepo ipns files world ∧
    ∀ ipns text, files.content (pathToDb pathToRepo ipns) = some text → looksLikeCid (firstWord text) = true →
      published ipns (firstWord text)

def Reached (json : JsonLib) (S : Storage σ) (dt : DateTime Ptime) (content : Hash → Option Value)
    (published : StdString → Hash → Prop) (s : GetContents σ Ptime) : Prop :=
  Reach (Starts published) (Step json S dt content published) s

end GetContents
end IpfsCache
