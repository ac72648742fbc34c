import H2Push.CInt
import H2Push.Request
import H2Push.Diary
import H2Push.DiaryLru
import H2Push.DiaryHash
import H2Push.GolombRice
import H2Push.GsetEncoder
import H2Push.Digest
import H2Push.LinkParser
import H2Push.LinkGrammar
import H2Push.Collect
import H2Push.Pipeline
import H2Push.DiaryHistory
import H2Push.Session
