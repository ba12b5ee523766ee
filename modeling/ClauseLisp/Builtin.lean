import ClauseLisp.Bytes

/-! The procedures every program can call. Several names can stand for one of them. -/

namespace ClauseLisp

inductive Builtin where
  | first | rest | cons | second | third | nth | take | drop | last | reverse | append | length
  | map | filter | foldLeft | foldRight | apply | compose | partialApply | identity | constantly
  | range | repeated | zip | flatten | distinct | sort | all | any | find | partition | interleave
  | sum | product | increment | decrement | square | cube | power | squareRoot | absolute
  | maximum | minimum | gcd
  | isEven | isOdd | isZero | isPositive | isNegative | isFunction | isNil | isEmpty | isList
  | isAtom | isNumber | isString
  | toText | toInteger | toFloat | textLength
  | hashMap | get | put | keys
deriving DecidableEq, Inhabited

namespace Builtin

def table : List (Bytes × Builtin) :=
  [(utf8 "car", first), (utf8 "cdr", rest), (utf8 "cons", cons), (utf8 "first", first),
    (utf8 "rest", rest), (utf8 "head", first), (utf8 "tail", rest), (utf8 "second", second),
    (utf8 "third", third), (utf8 "nth", nth), (utf8 "take", take), (utf8 "drop", drop),
    (utf8 "last", last), (utf8 "reverse", reverse), (utf8 "append", append),
    (utf8 "length", length), (utf8 "map", map), (utf8 "filter", filter),
    (utf8 "reduce", foldLeft), (utf8 "foldl", foldLeft), (utf8 "foldr", foldRight),
    (utf8 "apply", apply), (utf8 "compose", compose), (utf8 "partial", partialApply),
    (utf8 "identity", identity), (utf8 "constantly", constantly), (utf8 "range", range),
    (utf8 "repeat", repeated), (utf8 "zip", zip), (utf8 "flatten", flatten),
    (utf8 "distinct", distinct), (utf8 "sort", sort), (utf8 "all?", all), (utf8 "any?", any),
    (utf8 "find", find), (utf8 "partition", partition), (utf8 "interleave", interleave),
    (utf8 "sum", sum), (utf8 "product", product), (utf8 "inc", increment),
    (utf8 "dec", decrement), (utf8 "square", square), (utf8 "cube", cube), (utf8 "pow", power),
    (utf8 "sqrt", squareRoot), (utf8 "abs", absolute), (utf8 "max", maximum),
    (utf8 "min", minimum), (utf8 "gcd", gcd), (utf8 "even?", isEven), (utf8 "odd?", isOdd),
    (utf8 "zero?", isZero), (utf8 "positive?", isPositive), (utf8 "negative?", isNegative),
    (utf8 "function?", isFunction), (utf8 "nil?", isNil), (utf8 "empty?", isEmpty),
    (utf8 "list?", isList), (utf8 "atom?", isAtom), (utf8 "number?", isNumber),
    (utf8 "string?", isString), (utf8 "to-string", toText), (utf8 "to-integer", toInteger),
    (utf8 "to-float", toFloat), (utf8 "str-length", textLength), (utf8 "hash-map", hashMap),
    (utf8 "get", get), (utf8 "put", put), (utf8 "keys", keys)]

end Builtin
end ClauseLisp
