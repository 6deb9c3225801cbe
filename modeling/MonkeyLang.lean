import MonkeyLang.Main
import MonkeyLang.Proofs.Depth
import MonkeyLang.Proofs.RoundTrip
import MonkeyLang.Value.Equal
import MonkeyLang.Proofs.Within
import MonkeyLang.Proofs.Law
import MonkeyLang.Proofs.Series
import MonkeyLang.Proofs.Ordinary
import MonkeyLang.Proofs.Termination
import MonkeyLang.Proofs.Locality
import MonkeyLang.Proofs.ReadBack
import MonkeyLang.Proofs.Binding
import MonkeyLang.Proofs.Jumps
import MonkeyLang.Proofs.Lines
import MonkeyLang.Proofs.Tiling
import MonkeyLang.Proofs.Appending
import MonkeyLang.Proofs.Counting
import MonkeyLang.Proofs.Renaming
import MonkeyLang.Proofs.Scoping
import MonkeyLang.Proofs.Separation
import MonkeyLang.Proofs.Captures
import MonkeyLang.Proofs.Folding
import MonkeyLang.Proofs.Wrapping
import MonkeyLang.Proofs.Arithmetic
import MonkeyLang.Proofs.Hashes
import MonkeyLang.Proofs.Conversation
import MonkeyLang.Proofs.Division
import MonkeyLang.Proofs.Equality
import MonkeyLang.Proofs.Decoding
import MonkeyLang.Proofs.Frames
