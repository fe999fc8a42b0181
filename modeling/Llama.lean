import Llama.Kv.StateSeq
import Llama.Kv.CellsRun
import Llama.Kv.Mask
import Llama.Rpc.Recompute
import Llama.Grammar.Repeat
import Llama.Grammar.WellFormed
import Llama.Grammar.Replay
import Llama.Batch.Fits
import Llama.Output.Served
import Llama.Recurrent.States
import Llama.Decode.Failed
import Llama.Alloc.Reserve
import Llama.Peg.Stream
import Llama.Peg.ExcludeText
import Llama.Peg.UntilStop
import Llama.Peg.CharClass
import Llama.Schema.Pattern
import Llama.Regex.Search
import Llama.Peg.SaveTrip
import Llama.Server.Deferred
import Llama.Server.Cancel
import Llama.Server.Children
import Llama.Server.Transparent
import Llama.Alloc.BestFit
import Llama.Vocab.Pretokenize
import Llama.Vocab.Rwkv
import Llama.Vocab.UgmOptimal
import Llama.Vocab.Partition
import Llama.Vocab.BpeNaive
import Llama.Gguf.Merge
import Llama.Recurrent.RestoreSafe
import Llama.Vocab.RegexSplitLlama3
import Llama.Schema.NotStrings
import Llama.Schema.IntRule
import Llama.Server.Alora
import Llama.Server.Reuse
import Llama.Server.ContextShift
import Llama.Server.RowReads
import Llama.Server.StopWords
import Llama.Server.TokenWalks
import Llama.Grammar.Literal
import Llama.Sampling.RingBuffer
import Llama.Sampling.NgramCache
