import PhraseLang.Main
import PhraseLang.Command.Tree
import PhraseLang.Proofs.Canonical.RoundTrip
import PhraseLang.Proofs.Command
import PhraseLang.Proofs.CommentLine
import PhraseLang.Proofs.Cursor.Orderly
import PhraseLang.Proofs.Dump.Faithful
import PhraseLang.Proofs.Enclosure
import PhraseLang.Proofs.Grammar.Correspondence
import PhraseLang.Proofs.Grammar.Extension
import PhraseLang.Proofs.Grammar.ExtraBreak
import PhraseLang.Proofs.Grammar.Lookahead
import PhraseLang.Proofs.InlineComment
import PhraseLang.Proofs.Listing
import PhraseLang.Proofs.Maximal
import PhraseLang.Proofs.Misfit
import PhraseLang.Proofs.Padding
import PhraseLang.Proofs.Placement
import PhraseLang.Proofs.Position
import PhraseLang.Proofs.RepeatCount
import PhraseLang.Proofs.TabWidth
