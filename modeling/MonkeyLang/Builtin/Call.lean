/-
What the built-in functions do.
-/
import MonkeyLang.World

namespace MonkeyLang.Builtin

/-- The result of a call; only `puts` and `randint` leave a trace in the world. -/
def call (b : Builtin) (arguments : List Value) (w : World) : Except Fault Value × World :=
  let wrongCount := .error (.argumentCount arguments.length (if b = push then 2 else 1))
  match b with
  | first =>
    match arguments with
    | [.array items] => (.ok (items.head?.getD .null), w)
    | [v] => (.error (.notArray b v.tag), w)
    | _ => (wrongCount, w)
  | last =>
    match arguments with
    | [.array items] => (.ok (items.getLast?.getD .null), w)
    | [v] => (.error (.notArray b v.tag), w)
    | _ => (wrongCount, w)
  | rest =>
    match arguments with
    | [.array []] => (.ok .null, w)
    | [.array (_ :: items)] => (.ok (.array items), w)
    | [v] => (.error (.notArray b v.tag), w)
    | _ => (wrongCount, w)
  | push =>
    match arguments with
    | [.array items, v] => (.ok (.array (items ++ [v])), w)
    | [v, _] => (.error (.notArray b v.tag), w)
    | _ => (wrongCount, w)
  | len =>
    match arguments with
    | [.string s] => (.ok (.integer (Int64.ofNat s.length)), w)
    | [.array items] => (.ok (.integer (Int64.ofNat items.length)), w)
    | [v] => (.error (.unsupported b v.tag), w)
    | _ => (wrongCount, w)
  | toStr =>
    match arguments with
    | [.integer n] => (.ok (.string (Value.integer n).display), w)
    | [.boolean a] => (.ok (.string (Value.boolean a).display), w)
    | [.string s] => (.ok (.string s), w)
    | [v] => (.error (.unsupported b v.tag), w)
    | _ => (wrongCount, w)
  | range =>
    match arguments with
    | [.integer n] =>
      (.ok (.array ((List.range n.toInt.toNat).map fun i => .integer (Int64.ofNat i))), w)
    | [v] => (.error (.notInteger b v.tag), w)
    | _ => (wrongCount, w)
  | randint =>
    match arguments with
    | [.integer n] =>
      if n < 0 then (.error (.negativeBound n), w)
      else
        let (d, w) := w.draw
        (.ok (.integer (Int64.ofNat (d % (n.toInt.toNat + 1)))), w)
    | [v] => (.error (.notInteger b v.tag), w)
    | _ => (wrongCount, w)
  | puts =>
    (.ok .null, w.print (String.join (arguments.map fun v => v.display ++ "\n")))

end MonkeyLang.Builtin
