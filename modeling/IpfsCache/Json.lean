import IpfsCache.Text
import IpfsCache.Lib.OrderedMap

/-! nlohmann::json values as the tree code builds and reads them, and the library's
`dump` and `parse` as parameters. A number is kept as its text: no code looks into it. -/
namespace IpfsCache

inductive Json where
  | null
  | boolean (b : Bool)
  | number (text : StdString)
  | string (s : StdString)
  | array (items : List Json)
  | object (members : List (StdString × Json))

def valueField : StdString := ⟨[118,97,108,117,101]⟩
def childField : StdString := ⟨[99,104,105,108,100]⟩

namespace Json

def find (k : StdString) : Json → Option Json
  | object members => OrderedMap.find k members
  | _ => none

/-- operator[] as a read: a missing member reads as null, null turns into an object, on any
other value it throws std::domain_error (none). -/
def index (k : StdString) : Json → Option Json
  | object members => some ((OrderedMap.find k members).getD null)
  | null => some null
  | _ => none

def set (j : Json) (k : StdString) (x : Json) : Json :=
  match j with
  | object members => object (OrderedMap.assign k x members)
  | null => object [(k,x)]
  | other => other

def setField (j : Json) (k f s : StdString) : Json :=
  j.set k (((j.find k).getD null).set f (string s))

def StringOver (Ok : StdString → Prop) (j : Json) : Prop := ∃ s, j = string s ∧ Ok s

def ObjectOver (Ok : StdString → Prop) (P : Json → Prop) (j : Json) : Prop :=
  ∃ members, j = object members ∧ OrderedMap.Sorted members ∧ ∀ m ∈ members, Ok m.1 ∧ P m.2

def NodeDocument (Ok : StdString → Prop) : Json → Prop := ObjectOver Ok (ObjectOver Ok (StringOver Ok))

end Json

structure JsonLib where
  dump : Json → Value
  parse : Value → Option Json

/-- What the library promises of documents that hold valid UTF-8 only. -/
def JsonLib.ParsesBack (lib : JsonLib) : Prop :=
  ∀ j, Json.NodeDocument StdString.ValidUtf8 j → lib.parse (lib.dump j) = some j

/-- Strings are written byte by byte behind an escaping that can be undone, valid UTF-8 or not. -/
def JsonLib.DumpInjective (lib : JsonLib) (Ok : StdString → Prop) : Prop :=
  ∀ j j', Json.NodeDocument Ok j → Json.NodeDocument Ok j' → lib.dump j = lib.dump j' → j = j'

theorem JsonLib.ParsesBack.injective {lib : JsonLib} (back : lib.ParsesBack) :
    lib.DumpInjective StdString.ValidUtf8 :=
  fun j j' h h' same => Option.some.inj ((back j h).symm.trans ((congrArg lib.parse same).trans (back j' h')))

end IpfsCache
