import LiveTree.Json.Reader
import LiveTree.Node.Hash

/-!
Documents with the digests that every client has to find for them, since digests travel between
client and server.
-/

namespace LiveTree

structure HashVector where
  id : String
  json : String
  /-- The text of the digest, or none where nothing is stored. -/
  expected : Option String
deriving DecidableEq, Repr

namespace HashVector

def computed (v : HashVector) : Option String :=
  ((Json.read? v.json).bind fun x => (Node.ofValue x).hash).map Digest.text

def all : List HashVector :=
  [⟨"bool_true", "true", some "E5z61QM0lN/U2WsOnusszCTkR8M="⟩,
    ⟨"bool_false", "false", some "aSSNoqcS4oQwJ2xxH20rvpp3zP0="⟩,
    ⟨"number_one", "1", some "YPVfR2bXt/lcDjiQZ8pOkAd3qkQ="⟩,
    ⟨"number_zero", "0", some "7ysMph9WPitGP7poMnMHMVPtUlI="⟩,
    ⟨"number_negative_fraction", "-0.5", some "/r6we9NY8SVfOWrAH6omHfBJtYA="⟩,
    ⟨"string", "\"hello\"", some "z6sRbrNLwbHX5fdjpvsTtWgXUFc="⟩,
    ⟨"string_empty", "\"\"", some "Ki0Xy0V6morg0TO3Sxi/jwugYDQ="⟩,
    ⟨"object_unsorted", "\x7b\"b\":2,\"a\":1\x7d", some "AUZnXhNqrfbznYVxcCvNpzpjvTU="⟩,
    ⟨"object_sorted", "\x7b\"a\":1,\"b\":2\x7d", some "AUZnXhNqrfbznYVxcCvNpzpjvTU="⟩,
    ⟨"integer_keys_first", "\x7b\"a\":\"x\",\"10\":\"y\",\"9\":\"z\"\x7d",
      some "0PfQFXDHkLsttHTKmYhWJoUq9/c="⟩,
    ⟨"nested_null_collapses", "\x7b\"a\":\x7b\"b\":null\x7d\x7d", none⟩,
    ⟨"array", "[1,\"two\",false]", some "Fhn9Q1Krj4fEzG50f2UalI+p21g="⟩,
    ⟨"nested_object", "\x7b\"users\":\x7b\"u1\":\x7b\"name\":\"ada\",\"age\":36\x7d\x7d\x7d",
      some "zeziEiOFvx6LznaprsA5sVJfhD8="⟩]

end HashVector

def Segment.ascending : List String :=
  ["-10", "-1", "0", "1", "2", "10", "100", "+1", "-", "01a", "A", "a", "b", "z~"]

end LiveTree
