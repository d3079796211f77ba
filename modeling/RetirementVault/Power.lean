/-!
# Powers

A power of a number is the one that numbers have by themselves. It goes before the powers of all
kinds of things that a library brings into scope, so a bound such as `2 ^ n` is the same wherever it
stands.
-/

attribute [instance (2000)] instPowNat
